import CourseWork.Driver.Blocking

/-!
# Resizing under concurrency

The device with its lock and its wait queues, and any number of callers, at the
granularity of lock, body, copy and unlock. `ring_buffer_resize` assigns the whole
structure, the lock that it holds and the queues on which others sleep included.
-/

namespace CourseWork.Driver
open CLib Runs

/-! ## The callers -/

/-- The wait queues. -/
inductive WaitQueue
  | read
  | write
  deriving DecidableEq

/-- The call that waits on the queue. -/
def WaitQueue.op : WaitQueue → Bytes → Op
  | .read, kbuf => .read kbuf
  | .write, kbuf => .write kbuf

/-- The condition of the wait. -/
def WaitQueue.ready (rb : RingBuffer) : WaitQueue → Bytes → Bool
  | .read, _ => rb.count > 0
  | .write, kbuf => rb.size - rb.count ≥ kbuf.length

/-- Where a caller is in `wait_event_interruptible`. -/
inductive Stage
  | entered
  /-- Before `prepare_to_wait_event`. -/
  | unregistered
  /-- Before the condition is tested again. A wake-up is not lost. -/
  | registered (woken : Bool)
  | asleep

/-- Where a caller is. -/
inductive Task
  | outside
  | waiting (q : WaitQueue) (kbuf : Bytes) (stage : Stage)
  /-- Before `mutex_lock`. -/
  | locking (op : Op)
  | locked (op : Op)
  /-- In `ring_buffer_resize`, with the new structure. -/
  | copied (newRb : RingBuffer)
  /-- The structure has been assigned. -/
  | replaced
  /-- The queues have been initialised. -/
  | initialised
  /-- Before `mutex_unlock`, with the queues that are woken after it. -/
  | unlocking (answer : Answer) (wakes : List WaitQueue)
  | waking (answer : Answer) (wakes : List WaitQueue)
  | returned (answer : Answer)

/-- In a section between `mutex_lock` and `mutex_unlock`. -/
def Task.inside : Task → Bool
  | .locked _ | .copied _ | .replaced | .initialised | .unlocking .. => true
  | _ => false

/-- In `ring_buffer_resize`, between the assignment and `mutex_unlock`. -/
def Task.replacing : Task → Bool
  | .replaced | .initialised => true
  | _ => false

/-- Only a wake-up on this queue lets the caller go on, or keeps it from sleeping. -/
def Task.needs : Task → WaitQueue → Bool
  | .waiting q _ (.registered false), q' => q = q'
  | .waiting q _ .asleep, q' => q = q'
  | _, _ => false

/-- A wake-up. -/
def Task.woken : Task → Task
  | .waiting q kbuf .asleep => .waiting q kbuf .unregistered
  | .waiting q kbuf (.registered _) => .waiting q kbuf (.registered true)
  | task => task

/-! ## The steps -/

/-- `new_rb` of `ring_buffer_resize`; `temp` is what `kmalloc` returns for `temp_buf`. -/
def newRb (mem : Nat → UInt8) (temp : Option (Nat → UInt8)) (rb : RingBuffer) (newSize : Nat) :
    Option RingBuffer :=
  let newRb := { rb with
    buffer := kmalloc mem newSize
    size := newSize
    head := 0
    tail := 0
    count := 0 }
  if rb.count > 0 then
    match temp with
    | none => some newRb
    | some tempMem => do
      let toCopy := min rb.count newSize
      let tempBuf ← copyOut rb (kmalloc tempMem toCopy) toCopy
      let buffer ← memcpy newRb.buffer 0 tempBuf 0 toCopy
      return { newRb with buffer := buffer, count := toCopy, head := toCopy % newSize }
  else some newRb

/-- `ring_buffer_resize` in one step builds the same structure. -/
theorem ringBufferResize_eq (mem tempMem : Nat → UInt8) (rb : RingBuffer) {newSize : Nat}
    (hvalid : ¬(newSize < minBufferSize ∨ newSize > maxBufferSize)) :
    ringBufferResize mem tempMem rb newSize =
      (newRb mem (some tempMem) rb newSize).map (fun rb => (0, rb)) := by
  rw [ringBufferResize, if_neg hvalid, newRb]
  by_cases hcount : rb.count > 0
  · rw [if_pos hcount, if_pos hcount]
    simp only [Option.bind_eq_bind, Option.map_bind, Function.comp_def]
    rfl
  · rw [if_neg hcount, if_neg hcount]
    rfl

/-- A call up to its wait or its lock. The `fault` is the error of a missing buffer or of a
copy from the user. -/
def enter (rb : RingBuffer) (fault : Option Int) : Op → Task
  | .read kbuf =>
    match fault with
    | some e => .returned (-e, [])
    | none =>
      if rb.blocking then .waiting .read kbuf .entered
      else if rb.count = 0 then .returned (-eagain, [])
      else .locking (.read kbuf)
  | .write kbuf =>
    match fault with
    | some e => .returned (-e, [])
    | none => if rb.blocking then .waiting .write kbuf .entered else .locking (.write kbuf)
  | .clear => .locking .clear
  | .resize mem tempMem newSize =>
    if newSize < minBufferSize ∨ newSize > maxBufferSize then .returned (-einval, [])
    else
      match fault with
      | some e => .returned (-e, [])
      | none => .locking (.resize mem tempMem newSize)

/-- The body of a section: the task after it, and the ring buffer. -/
def body (rb : RingBuffer) (tempFails : Bool) : Op → Option (Task × RingBuffer)
  | .read kbuf => do
    let (result, data, rb') ← ringBufferRead rb kbuf
    return (.unlocking (result, data) (if rb.count = 0 then [] else [.write]), rb')
  | .write kbuf => do
    let (result, rb') ← ringBufferWrite rb kbuf
    return (.unlocking (result, kbuf) (if rb.size - rb.count = 0 then [] else [.read]), rb')
  | .clear => some (.unlocking (0, []) [.write], ringBufferClear rb)
  | .resize mem tempMem newSize => do
    let newRb ← newRb mem (if tempFails then none else some tempMem) rb newSize
    return (.copied newRb, rb)

/-- The device and its callers. -/
structure System where
  rb : RingBuffer
  owner : Option Nat
  queue : WaitQueue → List Nat
  task : Nat → Task

namespace System

/-- The caller goes on to another task. -/
def setTask (s : System) (c : Nat) (task : Task) : System :=
  { s with task := Function.update s.task c task }

/-- `wake_up_interruptible`: the callers on the queue are woken and leave it. -/
def wakeUp (s : System) (q : WaitQueue) : System where
  rb := s.rb
  owner := s.owner
  queue := Function.update s.queue q []
  task c := if c ∈ s.queue q then (s.task c).woken else s.task c

/-- A step of `wait_event_interruptible`. -/
def wait (s : System) (c : Nat) (q : WaitQueue) (kbuf : Bytes) : Stage → Option System
  | .entered =>
    if q.ready s.rb kbuf then some (s.setTask c (.locking (q.op kbuf)))
    else some (s.setTask c (.waiting q kbuf .unregistered))
  | .unregistered =>
    some { s.setTask c (.waiting q kbuf (.registered false)) with
      queue := Function.update s.queue q (s.queue q ++ [c]) }
  | .registered woken =>
    if q.ready s.rb kbuf then
      some { s.setTask c (.locking (q.op kbuf)) with
        queue := Function.update s.queue q ((s.queue q).erase c) }
    else if woken then some (s.setTask c (.waiting q kbuf .unregistered))
    else some (s.setTask c (.waiting q kbuf .asleep))
  | .asleep => none

/-- The next step of a caller. -/
def go (s : System) (c : Nat) (tempFails : Bool) : Option System :=
  match s.task c with
  | .outside | .returned _ => none
  | .waiting q kbuf stage => s.wait c q kbuf stage
  | .locking op =>
    if s.owner = none then some { s.setTask c (.locked op) with owner := some c } else none
  | .locked op => do
    let (task, rb) ← body s.rb tempFails op
    return { s.setTask c task with rb := rb }
  | .copied newRb =>
    -- The lock and the queues of `new_rb` are new.
    some { s.setTask c .replaced with rb := newRb, owner := none, queue := fun _ => [] }
  | .replaced => some { s.setTask c .initialised with queue := fun _ => [] }
  | .initialised => some { s.setTask c (.waking (0, []) [.read, .write]) with owner := none }
  | .unlocking answer wakes => some { s.setTask c (.waking answer wakes) with owner := none }
  | .waking answer [] => some (s.setTask c (.returned answer))
  | .waking answer (q :: wakes) => some ((s.wakeUp q).setTask c (.waking answer wakes))

end System

/-- A caller enters a call or goes on. -/
inductive Move
  | enter (c : Nat) (fault : Option Int) (op : Op)
  | go (c : Nat) (tempFails : Bool)

namespace System

/-- One step, if the caller can make it. -/
def step (s : System) : Move → Option System
  | .enter c fault op =>
    match s.task c with
    | .outside | .returned _ => some (s.setTask c (enter s.rb fault op))
    | _ => none
  | .go c tempFails => s.go c tempFails

/-- A step relation for the runs. -/
def Step (s : System) (m : Move) (s' : System) : Prop := s.step m = some s'

/-- No caller has called yet. -/
def idle (rb : RingBuffer) : System := ⟨rb, none, fun _ => [], fun _ => .outside⟩

/-- At most one caller is inside, and a caller that sleeps is registered. -/
structure Synchronised (s : System) : Prop where
  exclusive : ∀ c c', (s.task c).inside → (s.task c').inside → c = c'
  registered : ∀ c q kbuf, s.task c = .waiting q kbuf .asleep → c ∈ s.queue q

/-- The structure is assigned and its queues are initialised while no caller is registered,
and none takes the lock between the assignment and `mutex_unlock`. -/
def Undisturbed (s : System) : Move → Prop
  | .enter .. => True
  | .go c _ =>
    match s.task c with
    | .copied _ | .replaced => ∀ q, s.queue q = []
    | .locking _ => ∀ c', (s.task c').replacing = false
    | _ => True

/-! ## The invariant -/

/-- The caller inside owns the lock, unless it has just replaced it; a caller that needs a
wake-up is registered. -/
structure Inv (s : System) : Prop where
  exclusive : ∀ c c', (s.task c).inside → (s.task c').inside → c = c'
  owned : ∀ c, (s.task c).inside → (s.task c).replacing = false → s.owner = some c
  registered : ∀ c q, (s.task c).needs q → c ∈ s.queue q

variable {s s' : System} {c : Nat} {task : Task}

theorem Inv.synchronised (h : s.Inv) : s.Synchronised := by
  refine ⟨h.exclusive, fun c q kbuf htask => h.registered c q ?_⟩
  rw [htask, Task.needs]
  exact decide_eq_true rfl

theorem inv_idle (rb : RingBuffer) : (idle rb).Inv := ⟨nofun, nofun, nofun⟩

/-- What a step of one caller has to keep. -/
theorem Inv.move (h : s.Inv) (htask : s'.task = Function.update s.task c task)
    (hinside : task.inside → ∀ c', c' ≠ c → (s.task c').inside = false)
    (howned : task.inside → task.replacing = false → s'.owner = some c)
    (hothers : ∀ c', c' ≠ c → (s.task c').inside → (s.task c').replacing = false →
      s'.owner = some c')
    (hneeds : ∀ q, task.needs q → c ∈ s'.queue q)
    (hqueue : ∀ c' q, c' ≠ c → (s.task c').needs q → c' ∈ s'.queue q) : s'.Inv := by
  have hself : s'.task c = task := by rw [htask, Function.update_self]
  have hother : ∀ c', c' ≠ c → s'.task c' = s.task c' := fun c' hc => by
    rw [htask, Function.update_of_ne hc]
  refine ⟨fun c1 c2 h1 h2 => ?_, fun c1 h1 h2 => ?_, fun c1 q h1 => ?_⟩
  · by_cases hc1 : c1 = c
    · by_cases hc2 : c2 = c
      · rw [hc1, hc2]
      · rw [hc1, hself] at h1
        rw [hother c2 hc2, hinside h1 c2 hc2] at h2
        cases h2
    · rw [hother c1 hc1] at h1
      by_cases hc2 : c2 = c
      · rw [hc2, hself] at h2
        rw [hinside h2 c1 hc1] at h1
        cases h1
      · rw [hother c2 hc2] at h2
        exact h.exclusive c1 c2 h1 h2
  · by_cases hc1 : c1 = c
    · rw [hc1, hself] at h1 h2
      rw [hc1]
      exact howned h1 h2
    · rw [hother c1 hc1] at h1 h2
      exact hothers c1 hc1 h1 h2
  · by_cases hc1 : c1 = c
    · rw [hc1, hself] at h1
      rw [hc1]
      exact hneeds q h1
    · rw [hother c1 hc1] at h1
      exact hqueue c1 q hc1 h1

/-- A step outside of the sections that leaves the lock alone. -/
theorem Inv.move_outside (h : s.Inv) (htask : s'.task = Function.update s.task c task)
    (hinside : task.inside = false) (howner : s'.owner = s.owner)
    (hneeds : ∀ q, task.needs q → c ∈ s'.queue q)
    (hqueue : ∀ c' q, c' ≠ c → c' ∈ s.queue q → c' ∈ s'.queue q) : s'.Inv := by
  have hnot : ¬task.inside := by rw [hinside]; exact Bool.false_ne_true
  refine h.move htask (fun hin => absurd hin hnot) (fun hin => absurd hin hnot) ?_ hneeds
    (fun c' q hc hc' => hqueue c' q hc (h.registered c' q hc'))
  intro c' _ hin hreplacing
  rw [howner]
  exact h.owned c' hin hreplacing

/-- A step of the caller inside. -/
theorem Inv.move_inside (h : s.Inv) (hin : (s.task c).inside)
    (htask : s'.task = Function.update s.task c task)
    (howned : task.inside → task.replacing = false → s'.owner = some c)
    (hneeds : ∀ q, task.needs q = false)
    (hqueue : ∀ c' q, (s.task c').needs q → c' ∈ s'.queue q) : s'.Inv := by
  have hothers : ∀ c', c' ≠ c → (s.task c').inside = false := fun c' hc =>
    Bool.eq_false_iff.mpr fun hin' => hc (h.exclusive c' c hin' hin)
  refine h.move htask (fun _ => hothers) howned ?_ ?_ (fun c' q _ hc' => hqueue c' q hc')
  · intro c' hc hin'
    rw [hothers c' hc] at hin'
    cases hin'
  · intro q hq
    rw [hneeds q] at hq
    cases hq

end System

/-! ## The steps keep the invariant -/

theorem enter_outside (rb : RingBuffer) (fault : Option Int) (op : Op) :
    (enter rb fault op).inside = false ∧ ∀ q, (enter rb fault op).needs q = false := by
  cases op with
  | read kbuf =>
    cases fault with
    | some e => exact ⟨rfl, fun _ => rfl⟩
    | none =>
      simp only [enter]
      split
      · exact ⟨rfl, fun _ => rfl⟩
      · split
        · exact ⟨rfl, fun _ => rfl⟩
        · exact ⟨rfl, fun _ => rfl⟩
  | write kbuf =>
    cases fault with
    | some e => exact ⟨rfl, fun _ => rfl⟩
    | none =>
      simp only [enter]
      split
      · exact ⟨rfl, fun _ => rfl⟩
      · exact ⟨rfl, fun _ => rfl⟩
  | clear => exact ⟨rfl, fun _ => rfl⟩
  | resize mem tempMem newSize =>
    simp only [enter]
    split
    · exact ⟨rfl, fun _ => rfl⟩
    · cases fault with
      | some e => exact ⟨rfl, fun _ => rfl⟩
      | none => exact ⟨rfl, fun _ => rfl⟩

/-- The body of a section leads to `mutex_unlock` or to the assignment. -/
theorem body_cases {rb rb' : RingBuffer} {tempFails : Bool} {op : Op} {task : Task}
    (h : body rb tempFails op = some (task, rb')) :
    (∃ answer wakes, task = .unlocking answer wakes) ∨ ∃ newRb, task = .copied newRb := by
  cases op with
  | read kbuf =>
    obtain ⟨_, _, h⟩ := Option.bind_eq_some_iff.mp h
    cases h
    exact .inl ⟨_, _, rfl⟩
  | write kbuf =>
    obtain ⟨_, _, h⟩ := Option.bind_eq_some_iff.mp h
    cases h
    exact .inl ⟨_, _, rfl⟩
  | clear =>
    cases h
    exact .inl ⟨_, _, rfl⟩
  | resize mem tempMem newSize =>
    obtain ⟨_, _, h⟩ := Option.bind_eq_some_iff.mp h
    cases h
    exact .inr ⟨_, rfl⟩

theorem Task.woken_inside (task : Task) : task.woken.inside = task.inside := by
  rcases task with _ | ⟨q, kbuf, stage⟩ | _ | _ | _ | _ | _ | _ | _ | _ <;> try rfl
  cases stage <;> rfl

theorem Task.woken_replacing (task : Task) : task.woken.replacing = task.replacing := by
  rcases task with _ | ⟨q, kbuf, stage⟩ | _ | _ | _ | _ | _ | _ | _ | _ <;> try rfl
  cases stage <;> rfl

/-- A caller that was woken needs no wake-up. -/
theorem Task.woken_needs (task : Task) (q : WaitQueue) : task.woken.needs q = false := by
  rcases task with _ | ⟨q, kbuf, stage⟩ | _ | _ | _ | _ | _ | _ | _ | _ <;> try rfl
  cases stage <;> rfl

namespace System

variable {s s' : System} {c : Nat}

theorem Inv.wakeUp (h : s.Inv) (q : WaitQueue) : (s.wakeUp q).Inv := by
  have hinside : ∀ c, ((s.wakeUp q).task c).inside = (s.task c).inside := fun c => by
    simp only [System.wakeUp]
    split
    · exact Task.woken_inside _
    · rfl
  have hreplacing : ∀ c, ((s.wakeUp q).task c).replacing = (s.task c).replacing := fun c => by
    simp only [System.wakeUp]
    split
    · exact Task.woken_replacing _
    · rfl
  refine ⟨fun c c' hc hc' => ?_, fun c hc hc' => ?_, fun c q' hc => ?_⟩
  · rw [hinside] at hc hc'
    exact h.exclusive c c' hc hc'
  · rw [hinside] at hc
    rw [hreplacing] at hc'
    exact h.owned c hc hc'
  · simp only [System.wakeUp] at hc ⊢
    by_cases hmem : c ∈ s.queue q
    · rw [if_pos hmem, Task.woken_needs] at hc
      cases hc
    · -- A caller that is not on the queue does not need it.
      rw [if_neg hmem] at hc
      have hreg := h.registered c q' hc
      have hne : q' ≠ q := fun heq => hmem (heq ▸ hreg)
      rwa [Function.update_of_ne hne]

theorem wait_inv (h : s.Inv) {q : WaitQueue} {kbuf : Bytes} {stage : Stage}
    (htask : s.task c = .waiting q kbuf stage) (hwait : s.wait c q kbuf stage = some s') : s'.Inv := by
  cases stage with
  | entered =>
    rw [wait] at hwait
    split at hwait
    · cases hwait
      exact h.move_outside rfl rfl rfl nofun fun _ _ _ hmem => hmem
    · cases hwait
      exact h.move_outside rfl rfl rfl nofun fun _ _ _ hmem => hmem
  | unregistered =>
    cases hwait
    refine h.move_outside rfl rfl rfl (fun q' hq => ?_) (fun c' q' _ hmem => ?_)
    · obtain rfl : q = q' := of_decide_eq_true hq
      show c ∈ Function.update s.queue q _ q
      rw [Function.update_self]
      exact List.mem_append_right _ (List.mem_singleton.mpr rfl)
    · show c' ∈ Function.update s.queue q _ q'
      by_cases hq : q' = q
      · subst hq
        rw [Function.update_self]
        exact List.mem_append_left _ hmem
      · rwa [Function.update_of_ne hq]
  | registered woken =>
    rw [wait] at hwait
    split at hwait
    · cases hwait
      refine h.move_outside rfl rfl rfl nofun (fun c' q' hc hmem => ?_)
      show c' ∈ Function.update s.queue q _ q'
      by_cases hq : q' = q
      · subst hq
        rw [Function.update_self]
        exact (List.mem_erase_of_ne hc).mpr hmem
      · rwa [Function.update_of_ne hq]
    · split at hwait
      · cases hwait
        exact h.move_outside rfl rfl rfl nofun fun _ _ _ hmem => hmem
      · next hwoken =>
        cases hwait
        -- It is still registered, as no wake-up came since.
        refine h.move_outside rfl rfl rfl (fun q' hq => h.registered c q' ?_)
          (fun _ _ _ hmem => hmem)
        rw [htask, Bool.eq_false_iff.mpr hwoken]
        exact hq
  | asleep => cases hwait

theorem go_inv (h : s.Inv) {tempFails : Bool} (hC : s.Undisturbed (.go c tempFails))
    (hgo : s.go c tempFails = some s') : s'.Inv := by
  have hnobody : (∀ q, s.queue q = []) → ∀ (c' : Nat) (q : WaitQueue),
      (s.task c').needs q → c' ∈ ([] : List Nat) := fun hempty c' q hneeds =>
    hempty q ▸ h.registered c' q hneeds
  rw [go] at hgo
  rw [Undisturbed] at hC
  cases htask : s.task c with
  | outside =>
    rw [htask] at hgo
    cases hgo
  | waiting q kbuf stage =>
    rw [htask] at hgo
    exact wait_inv h htask hgo
  | locking op =>
    simp only [htask] at hgo hC
    split at hgo
    · next hfree =>
      cases hgo
      -- The lock is free, and the caller inside would own it.
      have hnone : ∀ c', (s.task c').inside = false := fun c' =>
        Bool.eq_false_iff.mpr fun hin => by
          have howned := h.owned c' hin (hC c')
          rw [hfree] at howned
          cases howned
      refine h.move rfl (fun _ c' _ => hnone c') (fun _ _ => rfl) ?_ nofun
        (fun c' q _ hneeds => h.registered c' q hneeds)
      intro c' _ hin
      rw [hnone c'] at hin
      cases hin
    · cases hgo
  | locked op =>
    simp only [htask] at hgo
    obtain ⟨⟨task, rb⟩, hbody, hgo⟩ := Option.bind_eq_some_iff.mp hgo
    cases hgo
    have hin : (s.task c).inside := by rw [htask]; rfl
    have howned : s.owner = some c := h.owned c hin (by rw [htask]; rfl)
    refine h.move_inside hin rfl (fun _ _ => howned) ?_ (fun c' q hneeds => h.registered c' q hneeds)
    rcases body_cases hbody with ⟨answer, wakes, rfl⟩ | ⟨newRb, rfl⟩
    · exact fun _ => rfl
    · exact fun _ => rfl
  | copied newRb =>
    simp only [htask] at hgo hC
    cases hgo
    exact h.move_inside (by rw [htask]; rfl) rfl nofun (fun _ => rfl) (hnobody hC)
  | replaced =>
    simp only [htask] at hgo hC
    cases hgo
    exact h.move_inside (by rw [htask]; rfl) rfl nofun (fun _ => rfl) (hnobody hC)
  | initialised =>
    simp only [htask] at hgo
    cases hgo
    exact h.move_inside (by rw [htask]; rfl) rfl nofun (fun _ => rfl)
      (fun c' q hneeds => h.registered c' q hneeds)
  | unlocking answer wakes =>
    simp only [htask] at hgo
    cases hgo
    exact h.move_inside (by rw [htask]; rfl) rfl nofun (fun _ => rfl)
      (fun c' q hneeds => h.registered c' q hneeds)
  | waking answer wakes =>
    cases wakes with
    | nil =>
      simp only [htask] at hgo
      cases hgo
      exact h.move_outside rfl rfl rfl nofun fun _ _ _ hmem => hmem
    | cons q wakes =>
      simp only [htask] at hgo
      cases hgo
      exact (h.wakeUp q).move_outside rfl rfl rfl nofun fun _ _ _ hmem => hmem
  | returned answer =>
    rw [htask] at hgo
    cases hgo

theorem step_inv {m : Move} (h : s.Inv) (hC : s.Undisturbed m) (hstep : s.Step m s') : s'.Inv := by
  cases m with
  | enter c fault op =>
    rw [Step, step] at hstep
    obtain ⟨hinside, hneeds⟩ := enter_outside s.rb fault op
    have hmove : (s.setTask c (Driver.enter s.rb fault op)).Inv := by
      refine h.move_outside rfl hinside rfl (fun q hq => ?_) (fun _ _ _ hmem => hmem)
      rw [hneeds q] at hq
      cases hq
    split at hstep
    · cases hstep
      exact hmove
    · cases hstep
      exact hmove
    · cases hstep
  | go c tempFails => exact go_inv h hC hstep

/-- If no replacement of the structure is disturbed, the sections exclude each other and all
sleeping callers are registered, in every state of the run. -/
theorem resize_synchronised {rb : RingBuffer} {trace : List (System × Move)}
    (hrun : Run Step (idle rb) trace s) (hsteps : Steps Undisturbed trace) :
    Always Synchronised trace s :=
  (hrun.always (inv_idle rb) (fun _ _ _ => step_inv) hsteps).mono fun _ => Inv.synchronised

/-- An empty ring buffer. -/
def emptyBuffer : RingBuffer where
  buffer := kmalloc (fun _ => 0) 256
  size := 256
  head := 0
  tail := 0
  count := 0
  writes := 0
  reads := 0
  overruns := 0
  blocking := true

/-! ### Three callers -/

/-- `Undisturbed`, tested for a step of one of three callers. -/
def quiet (s : System) : Move → Bool
  | .enter c _ _ => c < 3
  | .go c _ => c < 3 &&
    match s.task c with
    | .copied _ | .replaced => s.queue .read = [] && s.queue .write = []
    | .locking _ => (List.range 3).all fun c' => !(s.task c').replacing
    | _ => true

/-- Nobody else has called. -/
def Three (s : System) : Prop := ∀ c, 3 ≤ c → s.task c = .outside

theorem three_setTask (h : s.Three) (hc : c < 3) (task : Task) : (s.setTask c task).Three :=
  fun c' hc' => (Function.update_of_ne (by omega) _ _).trans (h c' hc')

theorem wakeUp_three (h : s.Three) (q : WaitQueue) : (s.wakeUp q).Three := fun c hc => by
  simp only [System.wakeUp, h c hc]
  exact ite_self _

theorem wait_three (h : s.Three) (hc : c < 3) {q : WaitQueue} {kbuf : Bytes} {stage : Stage}
    (hwait : s.wait c q kbuf stage = some s') : s'.Three := by
  cases stage with
  | entered =>
    rw [wait] at hwait
    split at hwait <;> cases hwait <;> exact three_setTask h hc _
  | unregistered =>
    cases hwait
    exact three_setTask h hc _
  | registered woken =>
    rw [wait] at hwait
    split at hwait
    · cases hwait
      exact three_setTask h hc _
    · split at hwait <;> cases hwait <;> exact three_setTask h hc _
  | asleep => cases hwait

theorem go_three (h : s.Three) (hc : c < 3) {tempFails : Bool}
    (hgo : s.go c tempFails = some s') : s'.Three := by
  rw [go] at hgo
  cases htask : s.task c with
  | outside | returned answer =>
    rw [htask] at hgo
    cases hgo
  | waiting q kbuf stage =>
    rw [htask] at hgo
    exact wait_three h hc hgo
  | locking op =>
    simp only [htask] at hgo
    split at hgo
    · cases hgo
      exact three_setTask h hc _
    · cases hgo
  | locked op =>
    simp only [htask] at hgo
    obtain ⟨_, _, hgo⟩ := Option.bind_eq_some_iff.mp hgo
    cases hgo
    exact three_setTask h hc _
  | waking answer wakes =>
    cases wakes with
    | nil =>
      simp only [htask] at hgo
      cases hgo
      exact three_setTask h hc _
    | cons q wakes =>
      simp only [htask] at hgo
      cases hgo
      exact three_setTask (wakeUp_three h q) hc _
  | copied | replaced | initialised | unlocking =>
    simp only [htask] at hgo
    cases hgo
    exact three_setTask h hc _

theorem step_three {m : Move} (h : s.Three) (hquiet : s.quiet m) (hstep : s.Step m s') :
    s'.Three := by
  cases m with
  | enter c fault op =>
    have hc : c < 3 := of_decide_eq_true hquiet
    rw [Step, step] at hstep
    split at hstep
    · cases hstep
      exact three_setTask h hc _
    · cases hstep
      exact three_setTask h hc _
    · cases hstep
  | go c tempFails =>
    have hc : c < 3 := of_decide_eq_true (Bool.and_eq_true_iff.mp hquiet).1
    exact go_three h hc hstep

/-- The test is enough. -/
theorem Three.undisturbed (h : s.Three) {m : Move} (hquiet : s.quiet m) : s.Undisturbed m := by
  cases m with
  | enter c fault op => trivial
  | go c tempFails =>
    have htest := (Bool.and_eq_true_iff.mp hquiet).2
    rw [Undisturbed]
    cases htask : s.task c with
    | copied newRb | replaced =>
      rw [htask] at htest
      obtain ⟨hread, hwrite⟩ := Bool.and_eq_true_iff.mp htest
      intro q
      cases q with
      | read => exact of_decide_eq_true hread
      | write => exact of_decide_eq_true hwrite
    | locking op =>
      rw [htask] at htest
      intro c'
      rcases Nat.lt_or_ge c' 3 with hc | hc
      · have hnot := List.all_eq_true.mp htest c' (List.mem_range.mpr hc)
        rwa [Bool.not_eq_true'] at hnot
      · rw [h c' hc]
        rfl
    | outside | waiting | locked | initialised | unlocking | waking | returned => trivial

/-- The answer of a caller that has returned. -/
def answered (s : System) (c : Nat) : Option Answer :=
  match s.task c with
  | .returned answer => some answer
  | _ => none

/-- A buffer is resized while a writer waits for the lock, and a reader comes and goes to sleep
before the resizer has unlocked. The reader is woken and gets what the writer writes. -/
theorem resize_synchronised_three_callers : ∃ earlier later middle s,
    Run Step (idle emptyBuffer) earlier middle ∧
    middle.task 0 = .waiting .read [0] .asleep ∧ (middle.task 1).inside ∧
    middle.task 2 = .locking (.write [7]) ∧
    Run Step (idle emptyBuffer) (later ++ earlier) s ∧ Always Synchronised (later ++ earlier) s ∧
    s.rb.size = 512 ∧ s.answered 0 = some (1, [7]) ∧ s.answered 1 = some (0, []) ∧
    s.answered 2 = some (1, [7]) := by
  let next (s : System) (m : Move) : Option System := if s.quiet m then s.step m else none
  let moves : List Move := [.enter 1 none (.resize (fun _ => 0) (fun _ => 0) 512), .go 1 false,
    .go 1 false, .enter 2 none (.write [7]), .go 2 false, .go 1 false, .go 1 false,
    .enter 0 none (.read [0]), .go 0 false, .go 0 false, .go 0 false]
  let moves' : List Move := [.go 1 false, .go 1 false, .go 1 false, .go 1 false, .go 0 false,
    .go 0 false, .go 2 false, .go 2 false, .go 2 false, .go 2 false, .go 2 false, .go 0 false,
    .go 0 false, .go 0 false, .go 0 false, .go 0 false, .go 0 false, .go 0 false]
  have hearlier : ∃ middle, exec next moves (idle emptyBuffer) = some middle ∧
      middle.task 0 = .waiting .read [0] .asleep ∧ (middle.task 1).inside ∧
      middle.task 2 = .locking (.write [7]) := ⟨_, rfl, rfl, rfl, rfl⟩
  have hboth : (exec next (moves ++ moves') (idle emptyBuffer)).map
      (fun s => (s.answered 0, s.answered 1, s.answered 2)) =
        some (some (1, [7]), some (0, []), some (1, [7])) := by decide +kernel
  have hsize : (exec next (moves ++ moves') (idle emptyBuffer)).map (fun s => s.rb.size) =
      some 512 := by decide +kernel
  obtain ⟨middle, hearlier, hreader, hresizer, hwriter⟩ := hearlier
  obtain ⟨s, hlater, hresults⟩ := Option.map_eq_some_iff.mp hboth
  rw [hlater, Option.map_some] at hsize
  rw [exec_append, hearlier, Option.bind_some] at hlater
  simp only [Prod.mk.injEq] at hresults
  obtain ⟨earlier, -, hrun, hsteps⟩ := Run.nil.exec_checked nofun hearlier
  rw [List.append_nil] at hrun hsteps
  obtain ⟨later, -, hrun', hsteps'⟩ := hrun.exec_checked hsteps hlater
  obtain ⟨-, hthree⟩ := hrun'.always (I := Three) (fun _ _ => rfl)
    (fun _ _ _ h hquiet hstep => step_three h hquiet hstep) hsteps'
  exact ⟨earlier, later, middle, s, hrun, hreader, hresizer, hwriter, hrun',
    resize_synchronised hrun' fun x hx => (hthree x hx).undisturbed (hsteps' x hx),
    Option.some.inj hsize, hresults⟩

/-- A reader sleeps while the buffer is resized, and a writer comes before the resizer has
unlocked: two callers are inside, and the reader is on no queue. -/
theorem resize_disturbed :
    ∃ rb trace s, Valid rb ∧ Run Step (idle rb) trace s ∧ ¬s.Synchronised ∧
      (s.task 1).inside ∧ (s.task 2).inside ∧
      s.task 0 = .waiting .read [0] .asleep ∧ s.queue .read = [] := by
  have hexec : ∃ s, exec step [.enter 0 none (.read [0]), .go 0 false, .go 0 false, .go 0 false,
      .enter 1 none (.resize (fun _ => 0) (fun _ => 0) 512), .go 1 false, .go 1 false, .go 1 false,
      .enter 2 none (.write [7]), .go 2 false, .go 2 false] (idle emptyBuffer) = some s ∧
      (s.task 1).inside ∧ (s.task 2).inside ∧ s.task 0 = .waiting .read [0] .asleep ∧
      s.queue .read = [] := ⟨_, rfl, rfl, rfl, rfl, rfl⟩
  obtain ⟨s, hs, hresizer, hwriter, hreader, hqueue⟩ := hexec
  obtain ⟨trace, hrun⟩ := Run.nil.exec hs
  refine ⟨emptyBuffer, trace, s, ⟨length_kmalloc _ _, by decide, by decide, by decide, by decide,
    by decide, by decide⟩, hrun, fun h => ?_, hresizer, hwriter, hreader, hqueue⟩
  exact absurd (h.exclusive 1 2 hresizer hwriter) (by decide)

end System

end CourseWork.Driver
