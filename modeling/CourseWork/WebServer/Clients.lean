import CourseWork.WebServer.EventLoop

/-!
# What the clients get

The steps of the web server keep its invariant, so that no client is affected by another one:
whatever arrives in between, each gets the answer that is due for its own bytes, and its
descriptor and its memory are released once.
-/

namespace CourseWork.WebServer
open CLib Runs Handles

namespace EventLoop

section Steps

variable {serverFd : Nat} {s s' : EventLoop}

/-! ### Accepting and closing -/

theorem Inv.pop (h : s.Inv serverFd) {e : EpollEvent} {events : List EpollEvent}
    (hcurrent : s.current = none) (hevents : s.events = some (e :: events)) :
    ({ s with events := some events } : EventLoop).Inv serverFd := by
  have hlive := h.live
  have hnodup := h.nodup
  rw [hevents] at hlive hnodup
  have hhung := h.hung
  rw [hevents] at hhung
  refine { h with live := ?_, nodup := ?_, hung := ?_, current := ?_ }
  · exact fun e' he' => hlive e' (List.mem_cons_of_mem _ he')
  · exact (List.nodup_cons.mp hnodup).2
  · exact fun e' he' => hhung e' (List.mem_cons_of_mem _ he')
  · intro p hp
    dsimp only at hp
    rw [hcurrent] at hp
    exact nomatch hp

/-- A connection leaves the queue and gets a descriptor. -/
theorem Inv.register (h : s.Inv serverFd) {k fd p : Nat} {queue : List Nat} {f : Socket → Socket}
    (hqueue : s.queue = k :: queue) (hfd : s.fds fd = none) (hp : s.heap p = none)
    (hlow : p % 2 ^ 32 ≠ serverFd)
    (hf : (s.sockets k).Waits .new → (f (s.sockets k)).Waits .new) :
    ({ s with
      queue := queue
      fds := Function.update s.fds fd (some (k, p))
      heap := Function.update s.heap p (some (fd, .new)) }.modify k f).Inv serverFd := by
  have hk := h.queued k (hqueue ▸ List.mem_cons_self)
  have hnodup := h.queueNodup
  rw [hqueue] at hnodup
  obtain ⟨hnew, hnodup⟩ := List.nodup_cons.mp hnodup
  have hmem : ∀ {p' r}, s.heap p' = some r → p' ≠ p := by
    rintro p' r hr rfl
    rw [hp] at hr
    exact nomatch hr
  have hother : ∀ {fd' k' p'}, s.fds fd' = some (k', p') → k' ≠ k := by
    rintro fd' k' p' hfd' rfl
    exact hk.2.1 _ _ hfd'
  refine {
    paired := h.paired.open hfd hp hk.2.1 _, low := ?_, live := ?_, nodup := h.nodup, hung := ?_
    current := ?_, queueNodup := hnodup, queued := ?_, opened := ?_, gone := ?_, unmade := ?_ }
  · intro p' r hp'
    rcases update_eq_some.mp hp' with ⟨rfl, _⟩ | ⟨_, hp'⟩
    · exact hlow
    · exact h.low hp'
  · intro e he
    exact (h.live e he).imp id fun ⟨r, hr⟩ =>
      ⟨r, (Function.update_of_ne (hmem hr) _ _).trans hr⟩
  · intro e he hhangup fd' k' hfd'
    rcases update_eq_some.mp hfd' with ⟨_, heq⟩ | ⟨_, hold⟩
    · -- The pointer was not allocated when the events were reported.
      obtain ⟨rfl, rfl⟩ := Prod.mk.inj (Option.some.inj heq)
      rcases h.live e he with hserver | ⟨r, hr⟩
      · exact absurd hserver hlow
      · exact absurd rfl (hmem hr)
    · rw [modify_sockets_ne _ _ (hother hold)]
      exact h.hung e he hhangup hold
  · intro p' hp'
    obtain ⟨⟨r, hr⟩, hrest⟩ := h.current hp'
    exact ⟨⟨r, (Function.update_of_ne (hmem hr) _ _).trans hr⟩, hrest⟩
  · intro j hj
    have hne : j ≠ k := fun heq => hnew (heq ▸ hj)
    obtain ⟨hmade, hunopened, hwaits⟩ := h.queued j (hqueue ▸ List.mem_cons_of_mem _ hj)
    refine ⟨hmade, fun fd' p' hfd' => ?_, ?_⟩
    · rcases update_eq_some.mp hfd' with ⟨_, heq⟩ | ⟨_, hfd'⟩
      · cases heq
        exact hne rfl
      · exact hunopened _ _ hfd'
    · rwa [modify_sockets_ne _ _ hne]
  · intro fd' k' p' data hfd' hp'
    rcases update_eq_some.mp hfd' with ⟨rfl, heq⟩ | ⟨_, hold⟩
    · cases heq
      rcases update_eq_some.mp hp' with ⟨_, heq'⟩ | ⟨hne, _⟩
      · cases heq'
        rw [modify_sockets_self]
        exact ⟨hk.1, hf hk.2.2⟩
      · exact absurd rfl hne
    · rcases update_eq_some.mp hp' with ⟨rfl, _⟩ | ⟨_, hpold⟩
      · obtain ⟨data', hpold⟩ := h.paired.known hold
        exact absurd rfl (hmem hpold)
      · rw [modify_sockets_ne _ _ (hother hold)]
        exact h.opened hold hpold
  · intro j hmade hout hunopened
    have hne : j ≠ k := by
      rintro rfl
      exact hunopened fd p (Function.update_self _ _ _)
    rw [modify_sockets_ne _ _ hne]
    refine h.gone j hmade (fun hmem => ?_) fun fd' p' hfd' => ?_
    · rcases List.mem_cons.mp (hqueue ▸ hmem) with heq | hmem
      · exact hne heq
      · exact hout hmem
    · refine hunopened fd' p' ((Function.update_of_ne ?_ _ _).trans hfd')
      rintro rfl
      rw [hfd] at hfd'
      exact nomatch hfd'
  · intro j hj
    have hne : j ≠ k := Nat.ne_of_gt (Nat.lt_of_lt_of_le hk.1 hj)
    rw [modify_sockets_ne _ _ hne]
    exact h.unmade j hj

/-- A connection leaves the queue and is closed at once. -/
theorem Inv.refuse (h : s.Inv serverFd) {k : Nat} {queue : List Nat}
    (hqueue : s.queue = k :: queue) :
    ({ s with queue := queue }.modify k fun socket => { socket with failed := true }).Inv
      serverFd := by
  have hk := h.queued k (hqueue ▸ List.mem_cons_self)
  have hnodup := h.queueNodup
  rw [hqueue] at hnodup
  obtain ⟨hnew, hnodup⟩ := List.nodup_cons.mp hnodup
  refine { h with
    hung := ?_, queueNodup := hnodup, queued := ?_, opened := ?_, gone := ?_, unmade := ?_ }
  · intro e he hhangup fd k' hfd
    have hne : k' ≠ k := by
      rintro rfl
      exact hk.2.1 _ _ hfd
    rw [modify_sockets_ne _ _ hne]
    exact h.hung e he hhangup hfd
  · intro j hj
    have hne : j ≠ k := fun heq => hnew (heq ▸ hj)
    rw [modify_sockets_ne _ _ hne]
    exact h.queued j (hqueue ▸ List.mem_cons_of_mem _ hj)
  · intro fd k' p data hfd hp
    have hne : k' ≠ k := by
      rintro rfl
      exact hk.2.1 _ _ hfd
    rw [modify_sockets_ne _ _ hne]
    exact h.opened hfd hp
  · intro j hmade hout hunopened
    rcases eq_or_ne j k with rfl | hne
    · rw [modify_sockets_self]
      exact .inl ⟨hk.2.2.1, .inr rfl⟩
    · rw [modify_sockets_ne _ _ hne]
      refine h.gone j hmade (fun hmem => ?_) hunopened
      rcases List.mem_cons.mp (hqueue ▸ hmem) with heq | hmem
      · exact hne heq
      · exact hout hmem
  · intro j hj
    have hne : j ≠ k := Nat.ne_of_gt (Nat.lt_of_lt_of_le hk.1 hj)
    rw [modify_sockets_ne _ _ hne]
    exact h.unmade j hj

/-- A connection is closed, and its memory freed. -/
theorem Inv.close (h : s.Inv serverFd) {k fd p : Nat} {f : Socket → Socket}
    (hfd : s.fds fd = some (k, p)) (hfinished : (f (s.sockets k)).Finished)
    (hevents : p ∉ (s.events.getD []).map (·.data)) :
    ({ (s.modify k f).close fd p with current := none }).Inv serverFd := by
  obtain ⟨data, hp⟩ := h.paired.known hfd
  have hk := (h.opened hfd hp).1
  refine {
    paired := h.paired.close hfd, low := ?_, live := ?_, nodup := h.nodup, hung := ?_
    current := fun hp => nomatch hp
    queueNodup := h.queueNodup, queued := ?_, opened := ?_, gone := ?_, unmade := ?_ }
  · intro p' r hp'
    rcases update_eq_some.mp hp' with ⟨_, heq⟩ | ⟨_, hp'⟩
    · exact nomatch heq
    · exact h.low hp'
  · intro e he
    refine (h.live e he).imp id fun ⟨r, hr⟩ => ⟨r, (Function.update_of_ne ?_ _ _).trans hr⟩
    rintro heq
    exact hevents (List.mem_map.mpr ⟨e, he, heq⟩)
  · intro e he hhangup fd' k' hfd'
    rcases update_eq_some.mp hfd' with ⟨_, heq⟩ | ⟨hne, hold⟩
    · exact nomatch heq
    · have hne' : k' ≠ k := by
        rintro rfl
        exact hne (h.paired.one hold hfd)
      exact (modify_sockets_ne s f hne').symm ▸ h.hung e he hhangup hold
  · intro j hj
    obtain ⟨hmade, hunopened, hwaits⟩ := h.queued j hj
    have hne : j ≠ k := by
      rintro rfl
      exact hunopened _ _ hfd
    refine ⟨hmade, fun fd' p' hfd' => ?_, (modify_sockets_ne s f hne).symm ▸ hwaits⟩
    rcases update_eq_some.mp hfd' with ⟨_, heq⟩ | ⟨_, hfd'⟩
    · exact nomatch heq
    · exact hunopened _ _ hfd'
  · intro fd' k' p' data' hfd' hp'
    rcases update_eq_some.mp hfd' with ⟨_, heq⟩ | ⟨hne, hfd'⟩
    · exact nomatch heq
    · rcases update_eq_some.mp hp' with ⟨_, heq⟩ | ⟨_, hp'⟩
      · exact nomatch heq
      · have hne' : k' ≠ k := by
          rintro rfl
          exact hne (h.paired.one hfd' hfd)
        exact (modify_sockets_ne s f hne').symm ▸ h.opened hfd' hp'
  · intro j hmade hout hunopened
    rcases eq_or_ne j k with rfl | hne
    · exact (modify_sockets_self s j f).symm ▸ hfinished
    · refine (modify_sockets_ne s f hne).symm ▸ h.gone j hmade hout fun fd' p' hfd' => ?_
      refine hunopened fd' p' ((Function.update_of_ne ?_ _ _).trans hfd')
      rintro rfl
      exact hne (congrArg Prod.fst (Option.some.inj (hfd'.symm.trans hfd)))
  · intro j hj
    have hne : j ≠ k := Nat.ne_of_gt (Nat.lt_of_lt_of_le hk hj)
    exact (modify_sockets_ne s f hne).symm ▸ h.unmade j hj

/-- Bytes go from the socket to the buffer. -/
theorem Inv.read (h : s.Inv serverFd) {k fd p : Nat} {f : Socket → Socket} {data : ClientData}
    (hfd : s.fds fd = some (k, p)) (hwaits : (f (s.sockets k)).Waits data)
    (hfin : (f (s.sockets k)).fin = (s.sockets k).fin) :
    ({ s.modify k f with heap := Function.update s.heap p (some (fd, data)) }).Inv serverFd := by
  obtain ⟨data0, hp⟩ := h.paired.known hfd
  have hk := (h.opened hfd hp).1
  have hlive : ∀ {p'}, (∃ r, s.heap p' = some r) →
      ∃ r, Function.update s.heap p (some (fd, data)) p' = some r := by
    rintro p' ⟨r, hr⟩
    rcases eq_or_ne p' p with rfl | hne
    · exact ⟨_, Function.update_self _ _ _⟩
    · exact ⟨r, (Function.update_of_ne hne _ _).trans hr⟩
  refine { h with
    paired := h.paired.write hfd data, low := ?_, live := ?_, hung := ?_, current := ?_
    queued := ?_, opened := ?_, gone := ?_, unmade := ?_ }
  · intro p' r hp'
    rcases update_eq_some.mp hp' with ⟨rfl, _⟩ | ⟨_, hp'⟩
    · exact h.low hp
    · exact h.low hp'
  · exact fun e he => (h.live e he).imp id hlive
  · intro e he hhangup fd' j hfd'
    have hj := h.hung e he hhangup hfd'
    rcases eq_or_ne j k with rfl | hne
    · exact (modify_sockets_self s j f).symm ▸ hfin.trans hj
    · exact (modify_sockets_ne s f hne).symm ▸ hj
  · intro p' hp'
    obtain ⟨hr, hrest⟩ := h.current hp'
    exact ⟨hlive hr, hrest⟩
  · intro j hj
    obtain ⟨hmade, hunopened, hw⟩ := h.queued j hj
    have hne : j ≠ k := by
      rintro rfl
      exact hunopened _ _ hfd
    exact ⟨hmade, hunopened, (modify_sockets_ne s f hne).symm ▸ hw⟩
  · intro fd' k' p' data' hfd' hp'
    rcases update_eq_some.mp hp' with ⟨rfl, heq⟩ | ⟨hne, hp'⟩
    · cases heq
      obtain rfl : k' = k := congrArg Prod.fst (Option.some.inj (hfd'.symm.trans hfd))
      exact ⟨hk, (modify_sockets_self s k' f).symm ▸ hwaits⟩
    · have hne' : k' ≠ k := fun heq => hne (h.paired.unique hfd' hfd (.inl heq)).2.2
      exact (modify_sockets_ne s f hne').symm ▸ h.opened hfd' hp'
  · intro j hmade hout hunopened
    have hne : j ≠ k := by
      rintro rfl
      exact hunopened _ _ hfd
    exact (modify_sockets_ne s f hne).symm ▸ h.gone j hmade hout hunopened
  · intro j hj
    have hne : j ≠ k := Nat.ne_of_gt (Nat.lt_of_lt_of_le hk hj)
    exact (modify_sockets_ne s f hne).symm ▸ h.unmade j hj

/-! ### What is ready -/

/-- A descriptor that was not touched is as awake as before. -/
theorem Awake.of (h : s.Awake) (hsame : ∀ fd k p, s'.fds fd = some (k, p) →
      (s'.sockets k).epollin = true → (s'.sockets k).edge = true ∨ s'.current = some p ∨
        s.fds fd = some (k, p) ∧ s'.sockets k = s.sockets k ∧ s.current ≠ some p ∧
          s'.events.getD [] = s.events.getD []) : s'.Awake := by
  intro fd k p hfd hin
  rcases hsame _ _ _ hfd hin with hedge | hcurrent | ⟨hfd', hk, hcurrent, hevents⟩
  · exact .inl hedge
  · exact .inr (.inl hcurrent)
  · rw [hk] at hin ⊢
    rw [hevents]
    exact (h _ _ _ hfd' hin).imp id fun hrest => .inr (hrest.resolve_left hcurrent)

/-- An event may be dropped if its connection is not ready, or is read next. -/
theorem Awake.pop (h : s.Awake) {e : EpollEvent} {events : List EpollEvent}
    (hcurrent : s.current = none) (hevents : s.events = some (e :: events)) {c : Option Nat}
    (he : ∀ {fd k}, s.fds fd = some (k, e.data) → e.epollin = true ∨ e.hangup = true →
      c = some e.data) : ({ s with events := some events, current := c } : EventLoop).Awake := by
  intro fd k p hfd hin
  rcases h _ _ _ hfd hin with hedge | hread | ⟨e', he', hdata, hflags⟩
  · exact .inl hedge
  · rw [hcurrent] at hread
    exact nomatch hread
  · rw [hevents] at he'
    rcases List.mem_cons.mp he' with rfl | he'
    · obtain rfl := hdata
      exact .inr (.inl (he hfd hflags))
    · exact .inr (.inr ⟨e', he', hdata, hflags⟩)

/-- Closing a descriptor leaves the others as they were. -/
theorem Awake.close (h : s.Awake) (hinv : s.Inv serverFd) {k fd p : Nat} {f : Socket → Socket}
    (events : Option (List EpollEvent)) (hfd : s.fds fd = some (k, p))
    (hcurrent : ∀ {p'}, s.current = some p' → p' = p)
    (hevents : ∀ e ∈ s.events.getD [], e ∉ events.getD [] → e.data = p) :
    ({ (s.modify k f).close fd p with events := events, current := none }).Awake := by
  intro fd' k' p' hfd' hin
  rcases update_eq_some.mp hfd' with ⟨_, heq⟩ | ⟨hne, hold⟩
  · exact nomatch heq
  · have hk : k' ≠ k := fun heq => hne (hinv.paired.unique hold hfd (.inl heq)).1
    have hp : p' ≠ p := fun heq => hne (hinv.paired.unique hold hfd (.inr heq)).1
    have hsock := modify_sockets_ne s f hk
    have hin' : (s.sockets k').epollin = true := by rw [← hsock]; exact hin
    rcases h _ _ _ hold hin' with hedge | hread | ⟨e, he, hdata, hflags⟩
    · exact .inl (by rw [← hsock] at hedge; exact hedge)
    · exact absurd (hcurrent hread) hp
    · by_cases hmem : e ∈ events.getD []
      · exact .inr (.inr ⟨e, hmem, hdata, hflags⟩)
      · exact absurd (hdata.symm.trans (hevents e he hmem)) hp

/-! ### The steps of the server -/

theorem Inv.accept (h : s.Inv serverFd) (hawake : s.Awake) (hcurrent : s.current = none)
    {k fd : Nat} {queue : List Nat} (hqueue : s.queue = k :: queue) (hfd : s.fds fd = none)
    (setup : Setup) : Keeps serverFd (accept serverFd s k queue fd setup) := by
  have hk := h.queued k (hqueue ▸ List.mem_cons_self)
  have hother : ∀ {fd' k' p'}, s.fds fd' = some (k', p') → k' ≠ k := by
    rintro fd' k' p' hfd' rfl
    exact hk.2.1 _ _ hfd'
  have hnone : ∀ {p}, s.current ≠ some p := by
    intro p hp
    rw [hcurrent] at hp
    exact nomatch hp
  have hrefuse : Keeps serverFd (.ok ({ s with queue := queue }.modify k
      fun socket => { socket with failed := true })) := by
    refine ⟨h.refuse hqueue, hawake.of fun _ _ _ hfd' _ => .inr (.inr ⟨hfd', ?_, hnone, rfl⟩)⟩
    exact modify_sockets_ne _ _ (hother hfd')
  cases setup with
  | nonblockingFails => exact hrefuse
  | mallocFails => exact hrefuse
  | epollFails p => exact hrefuse
  | registered p =>
    rw [EventLoop.accept]
    split
    · next hp =>
      refine ⟨h.register hqueue hfd hp.1 hp.2 fun hwaits => hwaits, hawake.of ?_⟩
      intro fd' k' p' hfd' hin
      rcases update_eq_some.mp hfd' with ⟨rfl, heq⟩ | ⟨_, hold⟩
      · cases heq
        rw [modify_sockets_self] at hin ⊢
        exact .inl hin
      · exact .inr (.inr ⟨hold, modify_sockets_ne _ _ (hother hold), hnone, rfl⟩)
    · exact rfl

theorem Inv.next (h : s.Inv serverFd) (hawake : s.Awake) {e : EpollEvent}
    {events : List EpollEvent} (hcurrent : s.current = none)
    (hevents : s.events = some (e :: events)) (accepted : Accepted) :
    Keeps serverFd (next serverFd { s with events := some events } e accepted) := by
  have hpop := h.pop hcurrent hevents
  have hlive := h.live e (by rw [hevents]; exact List.mem_cons_self)
  have hnodup := h.nodup
  rw [hevents] at hnodup
  obtain ⟨hnew, _⟩ := List.nodup_cons.mp hnodup
  unfold EventLoop.next
  split
  · next hserver =>
    -- An event of `server_fd` tells nothing of a descriptor.
    have hawake' : ({ s with events := some events, current := none } : EventLoop).Awake :=
      hawake.pop hcurrent hevents fun {fd k} hfd _ => by
        obtain ⟨data, hp⟩ := h.paired.known hfd
        exact absurd hserver (h.low hp)
    rw [← hcurrent] at hawake'
    split
    · exact ⟨hpop, hawake'⟩
    · exact rfl
    · next hqueue =>
      split
      · next hfd => exact hpop.accept hawake' hcurrent hqueue hfd.1 _
      · exact rfl
  · next hclient =>
    obtain ⟨⟨fd, data⟩, hp⟩ := hlive.resolve_left hclient
    obtain ⟨k, hfd⟩ := h.paired.owned hp
    rw [show ({ s with events := some events } : EventLoop).heap e.data = some (fd, data) from hp]
    dsimp only
    have hwaits := (h.opened hfd hp).2
    split
    · next hangup =>
      rw [if_neg
        (by rw [show ({ s with events := some events } : EventLoop).fds fd = _ from hfd]; exact nofun)]
      have hfin := h.hung e (by rw [hevents]; exact List.mem_cons_self) hangup hfd
      have hinv := hpop.close (f := fun socket => socket) hfd (.inl ⟨hwaits.1, .inl hfin⟩) hnew
      have hawake' := hawake.close h (f := fun socket => socket) (some events) hfd
        (fun hp => by rw [hcurrent] at hp; exact nomatch hp) fun e' he' hout => by
          rw [hevents] at he'
          rcases List.mem_cons.mp he' with rfl | he'
          · rfl
          · exact absurd he' hout
      rw [modify_self, ← hcurrent] at hinv hawake'
      exact ⟨hinv, hawake'⟩
    · next hangup =>
      split
      · refine ⟨{ hpop with current := fun hp' => ?_ }, hawake.pop hcurrent hevents fun _ _ => rfl⟩
        cases hp'
        exact ⟨⟨_, hp⟩, nofun, hnew⟩
      · next hin =>
        have hawake' := hawake.pop (c := none) hcurrent hevents fun _ hflags =>
          (hflags.elim hin hangup).elim
        rw [← hcurrent] at hawake'
        exact ⟨hpop, hawake'⟩

theorem Inv.recv (h : s.Inv serverFd) (hawake : s.Awake) {p : Nat} (hcurrent : s.current = some p)
    (result : Received) : Keeps serverFd (s.recv p result) := by
  obtain ⟨⟨⟨fd, data⟩, hp⟩, _, hnew⟩ := h.current hcurrent
  obtain ⟨k, hfd⟩ := h.paired.owned hp
  obtain ⟨hmade, houtputs, got, harrived, hdata⟩ := h.opened hfd hp
  have hclose : ∀ f : Socket → Socket, (f (s.sockets k)).Finished →
      Keeps serverFd (.ok { (s.modify k f).close fd p with current := none }) := fun f hf =>
    ⟨h.close hfd hf hnew, hawake.close h _ hfd
      (fun hp' => (Option.some.inj (hcurrent.symm.trans hp')).symm) fun e he hout => absurd he hout⟩
  rw [EventLoop.recv, hp]
  dsimp only
  rw [hfd]
  dsimp only
  cases result with
  | bytes n =>
    dsimp only
    split
    · next hn =>
      have hroom : ((s.sockets k).inbox.take n).length ≤ bufferSize - data.bufferLen - 1 := by
        rw [List.length_take]
        omega
      have hread : (s.sockets k).arrived =
          got ++ (s.sockets k).inbox.take n ++ (s.sockets k).inbox.drop n := by
        rw [harrived, List.append_assoc, List.take_append_drop]
      rcases received_cases hdata hroom with ⟨data', hreceived, hdata'⟩ | ⟨x, hreceived, hdue⟩
      · rw [hreceived]
        refine ⟨h.read hfd ⟨?_, _, hread, hdata'⟩ rfl, hawake.of fun fd' k' p' hfd' _ => ?_⟩
        · rw [houtputs]
          rfl
        · rcases eq_or_ne k' k with rfl | hne
          · obtain ⟨_, _, rfl⟩ := h.paired.unique hfd' hfd (.inl rfl)
            exact .inr (.inl hcurrent)
          · refine .inr (.inr ⟨hfd', Function.update_of_ne hne _ _, fun hp' => hne ?_, rfl⟩)
            have heq := Option.some.inj (hcurrent.symm.trans hp')
            exact (h.paired.unique hfd' hfd (.inr heq.symm)).2.1
      · rw [hreceived]
        refine hclose _ (.inr ⟨x, ?_, hread ▸ due_append hdue _⟩)
        rw [houtputs]
        rfl
    · exact rfl
  | nothing =>
    dsimp only
    split
    · next hinbox =>
      rw [afterLoop, hdata.unsent]
      cases hfin : (s.sockets k).fin with
      | true =>
        have hdone := hclose (fun socket => socket) (.inl ⟨houtputs, .inl hfin⟩)
        rw [modify_self] at hdone
        exact hdone
      | false =>
        refine ⟨{ h with current := fun hp => by cases hp }, hawake.of fun fd' k' p' hfd' hin => ?_⟩
        refine .inr (.inr ⟨hfd', rfl, fun hp' => ?_, rfl⟩)
        obtain rfl := Option.some.inj (hcurrent.symm.trans hp')
        obtain ⟨_, rfl, _⟩ := h.paired.unique hfd' hfd (.inr rfl)
        rw [Socket.epollin, hfin, hinbox] at hin
        cases hin
    · exact rfl
  | failed =>
    dsimp only
    rw [afterLoop, hdata.unsent]
    exact hclose (fun socket => { socket with failed := true }) (.inl ⟨houtputs, .inr rfl⟩)

/-- A step from a state where the invariant holds. -/
theorem Inv.step (h : s.Inv serverFd) (hawake : s.Awake) (hserver : serverFd < 2 ^ 31)
    (a : LoopAction) : Keeps serverFd (step serverFd s a) := by
  cases a with
  | connect => exact h.connect hawake
  | arrive k bytes => exact h.arrive hawake k bytes
  | finish k => exact h.finish hawake k
  | report ready => exact h.report hawake hserver ready
  | next accepted =>
    rw [EventLoop.step]
    split
    · next e events hcurrent hevents => exact h.next hawake hcurrent hevents accepted
    · exact rfl
  | recv result =>
    rw [EventLoop.step]
    split
    · next p hcurrent => exact h.recv hawake hcurrent result
    · exact rfl
  | again =>
    rw [EventLoop.step]
    split
    · next hcurrent hevents =>
      have hnone : ∀ {p}, s.current ≠ some p := fun hp => by
        rw [hcurrent] at hp
        cases hp
      refine ⟨{ h with
        live := fun _ he => absurd he List.not_mem_nil, nodup := .nil,
        hung := fun _ he => absurd he List.not_mem_nil, current := fun hp => absurd hp hnone },
        hawake.of fun fd k p hfd _ => .inr (.inr ⟨hfd, rfl, hnone, ?_⟩)⟩
      rw [hevents]
      rfl
    · exact rfl

/-- What holds at the end of a run. -/
theorem run_inv {trace : List (EventLoop × LoopAction)} (hserver : serverFd < 2 ^ 31)
    (hrun : Run (Step serverFd) start trace s) : s.Inv serverFd ∧ s.Awake :=
  hrun.invariant (I := fun s => s.Inv serverFd ∧ s.Awake) (C := fun _ _ => True)
    ⟨inv_start serverFd, awake_start⟩ (fun s a s' h _ hstep => by
      have hkeeps := h.1.step h.2 hserver a
      rw [Step] at hstep
      generalize EventLoop.step serverFd s a = r at hkeeps hstep
      cases r with
      | ok s1 =>
        cases hstep
        exact hkeeps
      | error fault => cases hstep) fun _ _ => trivial

end Steps

/-! ## Runs -/

/-- The server uses no memory that it has freed and no descriptor that it has closed, each open
descriptor has its memory and each allocated memory its descriptor, and each client gets at
most one answer, the one that is due for what it has sent. -/
structure Sound (serverFd : Nat) (s : EventLoop) : Prop where
  safe : ∀ a, step serverFd s a ≠ .error .misuse
  known : ∀ fd k p, s.fds fd = some (k, p) → ∃ data, s.heap p = some (fd, data)
  owned : ∀ p fd data, s.heap p = some (fd, data) → ∃ k, s.fds fd = some (k, p)
  once : ∀ k, (s.sockets k).outputs.length ≤ 1
  right : ∀ k, ∀ x ∈ (s.sockets k).outputs, due (s.sockets k).arrived = some x

/-- A connection has got no answer, or the one that is due. -/
theorem Inv.outputs {serverFd : Nat} {s : EventLoop} (h : s.Inv serverFd) (k : Nat) :
    (s.sockets k).outputs = [] ∨
      ∃ x, (s.sockets k).outputs = [x] ∧ due (s.sockets k).arrived = some x := by
  rcases Nat.lt_or_ge k s.made with hlt | hge
  · by_cases hqueue : k ∈ s.queue
    · exact .inl (h.queued k hqueue).2.2.1
    · by_cases hopen : s.Unopened k
      · exact (h.gone k hlt hqueue hopen).imp And.left id
      · unfold Unopened at hopen
        push Not at hopen
        obtain ⟨fd, p, hfd⟩ := hopen
        obtain ⟨data, hp⟩ := h.paired.known hfd
        exact .inl (h.opened hfd hp).2.1
  · rw [h.unmade k hge]
    exact .inl rfl

section Runs

variable {serverFd : Nat} {s : EventLoop} {trace : List (EventLoop × LoopAction)}

/-- In every run, with any number of clients. -/
theorem server_sound (hserver : serverFd < 2 ^ 31) (hrun : Run (Step serverFd) start trace s) :
    Sound serverFd s := by
  obtain ⟨h, hawake⟩ := run_inv hserver hrun
  refine ⟨fun a hmisuse => ?_, fun _ _ _ => h.paired.known, fun _ _ _ => h.paired.owned,
    fun k => ?_, fun k x hx => ?_⟩
  · have hkeeps := h.step hawake hserver a
    rw [hmisuse] at hkeeps
    exact nomatch hkeeps
  · rcases h.outputs k with hnone | ⟨x, hone, _⟩
    · rw [hnone]
      exact Nat.zero_le _
    · rw [hone]
      exact Nat.le_refl _
  · rcases h.outputs k with hnone | ⟨y, hone, hdue⟩
    · rw [hnone] at hx
      exact absurd hx List.not_mem_nil
    · rw [hone] at hx
      rw [List.mem_singleton.mp hx]
      exact hdue

/-- Three clients. The second one is accepted on the descriptor and the memory of the first one,
after that got its answer, and has sent a part of its request. The third one stays in the
queue. -/
def threeClients : List LoopAction :=
  [.connect, .connect, .report [none], .next (.fd 5 (.registered 64)), .again,
    .arrive 0 (ascii "GET / 1\r\n"), .report [some 5], .next .failed, .recv (.bytes 9),
    .recv .nothing, .again, .connect, .arrive 0 (ascii "\r\n"), .report [some 5, none],
    .next .failed, .recv (.bytes 2), .next (.fd 5 (.registered 64)), .again,
    .arrive 1 (ascii "GET"), .report [some 5], .next .failed, .recv (.bytes 3), .recv .nothing,
    .again]

/-- What can be seen of the state after them. -/
theorem exec_threeClients :
    (exec (fun s a => (step 3 s a).toOption) threeClients start).map (fun s =>
      ((s.sockets 0).outputs, [0, 1, 2].map fun k => (s.sockets k).edge, s.events, s.made)) =
      some ([.handled (ascii "GET / 1\r\n\r\n")], [false, false, false], none, 3) := by
  decide +kernel

theorem server_sound_three :
    ∃ trace s, Run (Step 3) start trace s ∧
      (s.sockets 0).outputs = [.handled (ascii "GET / 1\r\n\r\n")] ∧ Sound 3 s := by
  obtain ⟨s, hexec, hstate⟩ := Option.map_eq_some_iff.mp exec_threeClients
  obtain ⟨trace, hrun⟩ := Run.nil.exec hexec
  exact ⟨trace, s, hrun, (Prod.mk.inj hstate).1, server_sound (by decide) hrun⟩

/-- Back in `epoll_wait` with no event undelivered, the server has nothing to do for any client
that it has accepted: who has not hung up, and for whom no call failed, has got the answer that
is due, and no descriptor is left open for one who has. -/
theorem server_settled (hserver : serverFd < 2 ^ 31) (hrun : Run (Step serverFd) start trace s)
    (hwait : s.events = none)
    (hquiet : ∀ fd k p, s.fds fd = some (k, p) → (s.sockets k).edge = false) :
    (∀ k, k < s.made → k ∉ s.queue → (s.sockets k).fin = false → (s.sockets k).failed = false →
      (s.sockets k).outputs = (due (s.sockets k).arrived).toList) ∧
    ∀ fd k p, s.fds fd = some (k, p) → (s.sockets k).fin = false := by
  obtain ⟨h, hawake⟩ := run_inv hserver hrun
  -- Nothing is left to be read at an open descriptor.
  have hread : ∀ {fd k p}, s.fds fd = some (k, p) → (s.sockets k).epollin = false := by
    intro fd k p hfd
    rw [Bool.eq_false_iff]
    intro hin
    rcases hawake fd k p hfd hin with hedge | hcurrent | ⟨e, he, _⟩
    · rw [hquiet fd k p hfd] at hedge
      exact nomatch hedge
    · exact absurd hwait (h.current hcurrent).2.1
    · rw [hwait] at he
      exact nomatch he
  refine ⟨fun k hmade hqueue hfin hfailed => ?_, fun fd k p hfd => ?_⟩
  · by_cases hopen : s.Unopened k
    · rcases h.gone k hmade hqueue hopen with ⟨_, hleft⟩ | ⟨x, houtputs, hdue⟩
      · rw [hfin, hfailed] at hleft
        exact nomatch hleft
      · rw [houtputs, hdue]
        rfl
    · unfold Unopened at hopen
      push Not at hopen
      obtain ⟨fd, p, hfd⟩ := hopen
      obtain ⟨data, hp⟩ := h.paired.known hfd
      obtain ⟨_, houtputs, got, harrived, hdata⟩ := h.opened hfd hp
      have hinbox : (s.sockets k).inbox = [] := by
        have hin := hread hfd
        rw [Socket.epollin, Bool.or_eq_false_iff] at hin
        simpa using hin.2
      rw [houtputs, harrived, hinbox, List.append_nil, hdata.due]
      rfl
  · have hin := hread hfd
    rw [Socket.epollin, Bool.or_eq_false_iff] at hin
    exact hin.1

theorem server_settled_three :
    ∃ trace s, Run (Step 3) start trace s ∧
      (s.sockets 0).outputs = [.handled (ascii "GET / 1\r\n\r\n")] ∧
      (∀ k, k < s.made → k ∉ s.queue → (s.sockets k).fin = false →
        (s.sockets k).failed = false →
        (s.sockets k).outputs = (due (s.sockets k).arrived).toList) ∧
      ∀ fd k p, s.fds fd = some (k, p) → (s.sockets k).fin = false := by
  obtain ⟨s, hexec, hstate⟩ := Option.map_eq_some_iff.mp exec_threeClients
  obtain ⟨trace, hrun⟩ := Run.nil.exec hexec
  obtain ⟨h0, hstate⟩ := Prod.mk.inj hstate
  obtain ⟨hedges, hstate⟩ := Prod.mk.inj hstate
  obtain ⟨hwait, hmade⟩ := Prod.mk.inj hstate
  refine ⟨trace, s, hrun, h0, server_settled (by decide) hrun hwait fun fd k p hfd => ?_⟩
  have h := (run_inv (by decide) hrun).1
  obtain ⟨data, hp⟩ := h.paired.known hfd
  have hk := (h.opened hfd hp).1
  have hmem : k ∈ [0, 1, 2] := List.mem_range.mpr (hmade ▸ hk)
  have hfalse : (s.sockets k).edge ∈ [false, false, false] :=
    hedges ▸ List.mem_map_of_mem hmem
  simpa using hfalse

end Runs

end EventLoop

end CourseWork.WebServer
