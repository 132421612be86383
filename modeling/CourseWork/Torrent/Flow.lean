import CourseWork.Torrent.BlockRequests
import CourseWork.Torrent.Reception

/-!
# Connections that deliver

Total triples for the functions of the network and of a peer, on a connection that never
fails: as long as the other side delivers enough bytes and takes ours, every call returns,
and it returns what the stream shows.
-/

namespace CourseWork.Torrent
open CLib Prog

/-! ## Scripts without failures -/

/-- The receive delivers something. -/
def RecvStep.delivers : RecvStep → Bool
  | .data _ => true
  | _ => false

/-- The send takes something. -/
def SendStep.takes : SendStep → Bool
  | .accepted _ => true
  | _ => false

/-- Receives are interrupted or deliver, and at least `n` deliver. -/
structure Delivers (n : Nat) (recvs : List RecvStep) : Prop where
  steps : ∀ step ∈ recvs, step = .interrupted ∨ step.delivers = true
  enough : n ≤ recvs.countP RecvStep.delivers

/-- Sends are interrupted or take something, and at least `n` take something. -/
structure Takes (n : Nat) (sends : List SendStep) : Prop where
  steps : ∀ step ∈ sends, step = .interrupted ∨ step.takes = true
  enough : n ≤ sends.countP SendStep.takes

theorem Delivers.mono {m n : Nat} {recvs : List RecvStep} (h : Delivers n recvs) (hle : m ≤ n) :
    Delivers m recvs := ⟨h.steps, Nat.le_trans hle h.enough⟩

theorem Takes.mono {m n : Nat} {sends : List SendStep} (h : Takes n sends) (hle : m ≤ n) :
    Takes m sends := ⟨h.steps, Nat.le_trans hle h.enough⟩

theorem Delivers.tail {n : Nat} {step : RecvStep} {recvs : List RecvStep}
    (h : Delivers n (step :: recvs)) :
    Delivers (n - if step.delivers then 1 else 0) recvs := by
  refine ⟨fun step' hmem => h.steps step' (List.mem_cons_of_mem step hmem), ?_⟩
  have henough := h.enough
  rw [List.countP_cons] at henough
  omega

theorem Takes.tail {n : Nat} {step : SendStep} {sends : List SendStep}
    (h : Takes n (step :: sends)) : Takes (n - if step.takes then 1 else 0) sends := by
  refine ⟨fun step' hmem => h.steps step' (List.mem_cons_of_mem step hmem), ?_⟩
  have henough := h.enough
  rw [List.countP_cons] at henough
  omega

/-! ## The connection -/

/-- `running` stays set, `pos` bytes of the stream are consumed, and the connection has room
for `m` more bytes from the other side and for `n` from ours. -/
structure Flowing (stream : Nat → UInt8) (pos m n : Nat) (s : Net) : Prop where
  flag : s.flag = none
  stream : s.conn.stream = stream
  pos : s.conn.pos = pos
  recvs : Delivers m s.conn.recvs
  sends : Takes n s.conn.sends

section Flowing

variable {stream : Nat → UInt8} {pos m n : Nat} {s : Net}

theorem Flowing.trace (h : Flowing stream pos m n s) (trace : List NetEvent) :
    Flowing stream pos m n { s with trace := trace } :=
  ⟨h.flag, h.stream, h.pos, h.recvs, h.sends⟩

theorem running_flowing :
    Triple (Flowing stream pos m n) running (fun b s => b = true ∧ Flowing stream pos m n s)
      (fun _ => False) := running_set fun _ h => h.flag

/-- A receive leaves the stream behind what it returns. -/
theorem recvLoop_flowing {len : Nat} : ∀ (steps : List RecvStep) {k : Nat}, k ≤ len →
    Triple (fun s => Flowing stream (pos + k) (len - k + m) n s ∧ s.conn.recvs = steps)
      (recvLoop len steps (slice stream pos k))
      (fun r s => r = some (slice stream pos len) ∧ Flowing stream (pos + len) m n s)
      (fun _ => False) := by
  have hfull : ∀ {steps k}, k ≤ len → len ≤ k →
      Triple (fun s => Flowing stream (pos + k) (len - k + m) n s ∧ s.conn.recvs = steps)
        (do return if ← running then some (slice stream pos k) else none)
        (fun r s => r = some (slice stream pos len) ∧ Flowing stream (pos + len) m n s)
        (fun _ => False) := by
    intro steps k hk hle
    obtain rfl : k = len := Nat.le_antisymm hk hle
    refine Triple.bind (running_set fun s h => h.1.flag) fun b => Triple.assume fun hb => ?_
    subst hb
    rw [Nat.sub_self, Nat.zero_add]
    exact Triple.pure fun s hs => ⟨rfl, hs.1⟩
  intro steps
  induction steps with
  | nil =>
    intro k hk
    rw [recvLoop, length_slice]
    refine Triple.ite (hfull hk) fun hpart => ?_
    -- The script cannot be at its end while bytes are missing.
    rintro s ⟨h, hscript⟩
    have henough := h.recvs.enough
    rw [hscript, List.countP_nil] at henough
    omega
  | cons step steps ih =>
    intro k hk
    rw [recvLoop.eq_def]
    dsimp only
    rw [length_slice]
    refine Triple.ite (hfull hk) fun hpart => ?_
    refine Triple.bind (running_set fun s h => h.1.flag) fun b => Triple.assume fun hb => ?_
    subst hb
    refine Triple.ite (fun _ => ?_) fun h => absurd rfl h
    refine Triple.of_eq fun s0 hs0 => ?_
    obtain ⟨h, hscript⟩ := hs0
    have hrecvs : Delivers (len - k + m) (step :: steps) := hscript ▸ h.recvs
    have htail := hrecvs.tail
    refine Triple.bind (Triple.modify (Q := fun _ s' =>
      s' = { s0 with conn := { s0.conn with recvs := steps } }) fun s hs => by rw [hs]) fun _ => ?_
    rcases hrecvs.steps step List.mem_cons_self with rfl | hdelivers
    · refine (ih hk).pre ?_
      rintro _ rfl
      exact ⟨⟨h.flag, h.stream, h.pos, htail, h.sends⟩, rfl⟩
    · cases step with
      | data j =>
        refine Triple.bind (Triple.get (Q := fun s s' => s = s' ∧
          s' = { s0 with conn := { s0.conn with recvs := steps } }) fun s hs => ⟨rfl, hs⟩)
          fun s => ?_
        refine Triple.of_eq fun s1 h1 => ?_
        obtain ⟨rfl, rfl⟩ := h1
        have hstream : s0.conn.stream = stream := h.stream
        have hpos : s0.conn.pos = pos + k := h.pos
        refine Triple.bind (Triple.modify (Q := fun _ s' =>
          Flowing stream (pos + (k + min (j + 1) (len - k))) (len - (k + min (j + 1) (len - k)) + m)
            n s' ∧ s'.conn.recvs = steps) ?_) fun _ => ?_
        · rintro _ rfl
          refine ⟨⟨h.flag, hstream, ?_, ?_, h.sends⟩, rfl⟩
          · show s0.conn.pos + min (j + 1) (len - k) = _
            rw [hpos, Nat.add_assoc]
          · rw [RecvStep.delivers, if_pos rfl] at htail
            exact htail.mono (by omega)
        · show Triple _ (recvLoop len steps (slice stream pos k ++
            slice s0.conn.stream s0.conn.pos (min (j + 1) (len - k)))) _ _
          rw [hstream, hpos, slice_append]
          exact ih (by omega)
      | interrupted | pollError | timeout | closed | error => cases hdelivers

/-- `recv_full_timeout` returns the next bytes of the stream. -/
theorem recvFullTimeout_flowing {len : Nat} :
    Triple (Flowing stream pos (len + m) n) (recvFullTimeout len)
      (fun r s => r = some (slice stream pos len) ∧ Flowing stream (pos + len) m n s)
      (fun _ => False) := by
  refine Triple.bind (Triple.get (Q := fun s s' => s' = s ∧ Flowing stream pos (len + m) n s)
    fun s hs => ⟨rfl, hs⟩) fun s => (recvLoop_flowing s.conn.recvs (Nat.zero_le len)).pre ?_
  rintro _ ⟨rfl, hs⟩
  exact ⟨hs, rfl⟩

/-- `send_full_timeout` sends everything. -/
theorem sendLoop_flowing {buf : Bytes} : ∀ (steps : List SendStep) (sent : Nat),
    Triple (fun s => Flowing stream pos m (buf.length - sent + n) s ∧ s.conn.sends = steps)
      (sendLoop buf steps sent) (fun ok s => ok = true ∧ Flowing stream pos m n s)
      (fun _ => False) := by
  have hdone : ∀ {steps sent}, buf.length ≤ sent →
      Triple (fun s => Flowing stream pos m (buf.length - sent + n) s ∧ s.conn.sends = steps)
        (sendLoop.sendDone buf) (fun ok s => ok = true ∧ Flowing stream pos m n s)
        (fun _ => False) := by
    intro steps sent hle
    rw [Nat.sub_eq_zero_of_le hle, Nat.zero_add]
    refine Triple.bind (Triple.get (Q := fun _ s => Flowing stream pos m n s) fun s hs => hs.1)
      fun s => ?_
    exact Triple.bind (Triple.modify (Q := fun _ s => Flowing stream pos m n s) fun s' hs =>
      hs.trace _) fun _ => running_flowing
  intro steps
  induction steps with
  | nil =>
    intro sent
    rw [sendLoop]
    refine Triple.ite hdone fun hpart => ?_
    rintro s ⟨h, hscript⟩
    have henough := h.sends.enough
    rw [hscript, List.countP_nil] at henough
    omega
  | cons step steps ih =>
    intro sent
    rw [sendLoop.eq_def]
    dsimp only
    refine Triple.ite hdone fun hpart => ?_
    refine Triple.bind (running_set fun s h => h.1.flag) fun b => Triple.assume fun hb => ?_
    subst hb
    refine Triple.ite (fun _ => ?_) fun h => absurd rfl h
    refine Triple.of_eq fun s0 hs0 => ?_
    obtain ⟨h, hscript⟩ := hs0
    have hsends : Takes (buf.length - sent + n) (step :: steps) := hscript ▸ h.sends
    have htail := hsends.tail
    refine Triple.bind (Triple.modify (Q := fun _ s' =>
      s' = { s0 with conn := { s0.conn with sends := steps } }) fun s hs => by rw [hs]) fun _ => ?_
    rcases hsends.steps step List.mem_cons_self with rfl | htakes
    · refine (ih _).pre ?_
      rintro _ rfl
      exact ⟨⟨h.flag, h.stream, h.pos, h.recvs, htail⟩, rfl⟩
    · cases step with
      | accepted j =>
        refine (ih _).pre ?_
        rintro _ rfl
        rw [SendStep.takes, if_pos rfl] at htail
        exact ⟨⟨h.flag, h.stream, h.pos, h.recvs, htail.mono (by omega)⟩, rfl⟩
      | interrupted | pollError | timeout | closed | error | brokenPipe => cases htakes

/-- `send_full_timeout` sends everything. -/
theorem sendFullTimeout_flowing {buf : Bytes} :
    Triple (Flowing stream pos m (buf.length + n)) (sendFullTimeout buf)
      (fun ok s => ok = true ∧ Flowing stream pos m n s) (fun _ => False) := by
  refine Triple.bind (Triple.get (Q := fun s s' => s' = s ∧
    Flowing stream pos m (buf.length + n) s) fun s hs => ⟨rfl, hs⟩) fun s =>
      (sendLoop_flowing s.conn.sends 0).pre ?_
  rintro _ ⟨rfl, hs⟩
  exact ⟨hs, rfl⟩

end Flowing

/-! ## Messages -/

/-- A message behind its length. -/
def frame (msg : Bytes) : Bytes := htonl (UInt32.ofNat msg.length) ++ msg

/-- Messages one after the other, each short enough for its length to be told. -/
def frames (msgs : List Bytes) : Bytes := msgs.flatMap frame

/-- The stream shows these bytes from `pos` on. -/
def Shows (stream : Nat → UInt8) (pos : Nat) (bytes : Bytes) : Prop :=
  slice stream pos bytes.length = bytes

instance (stream : Nat → UInt8) (pos : Nat) (bytes : Bytes) : Decidable (Shows stream pos bytes) :=
  inferInstanceAs (Decidable (_ = _))

/-- What `peer_read_message` makes of a message. -/
def readAs : Bytes → UInt8 × Bytes
  | [] => (255, [])
  | id :: payload => (id, payload)

/-- What `peer_wait_for_unchoke` makes of a message. -/
def hear (peer : PeerConnection) (msg : Bytes) : PeerConnection :=
  if (readAs msg).1 = 255 then peer else handleMessage peer (readAs msg).1 (readAs msg).2

section Messages

variable {stream : Nat → UInt8} {pos m n : Nat} {msg : Bytes} {R : Net → Prop}

theorem length_frame (msg : Bytes) : (frame msg).length = 4 + msg.length := by
  rw [frame, List.length_append]
  rfl

theorem shows_append {a b : Bytes} :
    Shows stream pos (a ++ b) ↔ Shows stream pos a ∧ Shows stream (pos + a.length) b := by
  rw [Shows, List.length_append, ← slice_append]
  refine ⟨fun h => List.append_inj h (length_slice _ _ _), ?_⟩
  rintro ⟨ha, hb⟩
  rw [Shows] at ha hb
  rw [ha, hb]

theorem Shows.front {a b : Bytes} (h : Shows stream pos (a ++ b)) : Shows stream pos a :=
  (shows_append.mp h).1

theorem Shows.rest {a b : Bytes} (h : Shows stream pos (a ++ b)) :
    Shows stream (pos + a.length) b := (shows_append.mp h).2

/-- What a stream shows is what is read from it. -/
theorem Shows.frame (h : Shows stream pos (frame msg)) (hlen : msg.length < 2 ^ 32) :
    (ntohl (slice stream pos 4)).toNat = msg.length ∧ slice stream (pos + 4) msg.length = msg := by
  obtain ⟨hfront, hmsg⟩ := shows_append.mp h
  refine ⟨?_, hmsg⟩
  have hslice : slice stream pos 4 = htonl (UInt32.ofNat msg.length) := hfront
  have hread := ntohl_htonl (UInt32.ofNat msg.length) []
  rw [List.append_nil] at hread
  rw [hslice, hread]
  exact UInt32.toNat_ofNat_of_lt' hlen

/-- `recv_message` returns the message in the next frame. -/
theorem recvMessage_flowing (h : Shows stream pos (frame msg)) (hlen : msg.length < 2 ^ 32) :
    Triple (Flowing stream pos ((frame msg).length + m) n) recvMessage
      (fun r s => r = some msg ∧ Flowing stream (pos + (frame msg).length) m n s)
      (fun _ => False) := by
  obtain ⟨htoNat, hmsg⟩ := h.frame hlen
  rw [length_frame, Nat.add_assoc, ← Nat.add_assoc pos]
  refine Triple.bind recvFullTimeout_flowing fun r => Triple.assume fun hr => ?_
  subst hr
  dsimp only
  refine Triple.ite (fun hzero => Triple.pure fun s hs => ?_) fun _ => ?_
  · rw [hzero] at htoNat
    have hnil : msg = [] := List.length_eq_zero_iff.mp htoNat.symm
    subst hnil
    exact ⟨rfl, by simpa using hs⟩
  · rw [htoNat]
    exact recvFullTimeout_flowing.post fun r s hs => ⟨by rw [hs.1, hmsg], hs.2⟩

/-- `peer_read_message` returns the message in the next frame. -/
theorem peerReadMessage_flowing (h : Shows stream pos (frame msg)) (hlen : msg.length < 2 ^ 32) :
    Triple (Flowing stream pos ((frame msg).length + m) n) peerReadMessage
      (fun r s => r = some (readAs msg) ∧ Flowing stream (pos + (frame msg).length) m n s)
      (fun _ => False) := by
  refine Triple.bind (Triple.get (Q := fun _ => Flowing stream pos ((frame msg).length + m) n)
    fun _ hs => hs) fun s => ?_
  refine Triple.bind (recvMessage_flowing h hlen) fun r => Triple.assume fun hr => ?_
  subst hr
  have hrecord : ∀ e, Triple (Flowing stream (pos + (frame msg).length) m n) (record e)
      (fun _ => Flowing stream (pos + (frame msg).length) m n) (fun _ => False) := fun e =>
    Triple.modify fun s hs => hs.trace _
  cases msg with
  | nil => exact Triple.bind (hrecord _) fun _ => Triple.pure fun s hs => ⟨rfl, hs⟩
  | cons id payload => exact Triple.bind (hrecord _) fun _ => Triple.pure fun s hs => ⟨rfl, hs⟩

/-! ## The loops over messages -/

/-- Only an unchoke opens a choked connection. -/
theorem hear_choked {peer : PeerConnection} (hchoked : peer.choked = true)
    (hid : (readAs msg).1 ≠ 1) : (hear peer msg).choked = true := by
  unfold hear
  split
  · exact hchoked
  · unfold handleMessage
    rw [if_neg hid]
    split
    · rfl
    · split
      · split
        · dsimp only
          split
          · split <;> exact hchoked
          · exact hchoked
        · exact hchoked
      · split <;> exact hchoked

/-- `peer_wait_for_unchoke` hears every message before the unchoke. -/
theorem waitLoop_flowing : ∀ (greeting : List Bytes) {pos rounds : Nat} {peer : PeerConnection},
    greeting.length < rounds → peer.choked = true →
    (∀ msg ∈ greeting, msg.length < 2 ^ 32 ∧ (readAs msg).1 ≠ 1) →
    Shows stream pos (frames greeting ++ frame [1]) →
    Triple (Flowing stream pos ((frames greeting ++ frame [1]).length + m) n)
      (waitLoop rounds peer)
      (fun r s => r = some { greeting.foldl hear peer with choked := false } ∧
        Flowing stream (pos + (frames greeting ++ frame [1]).length) m n s)
      (fun _ => False)
  | _, _, 0, _, hrounds, _, _, _ => absurd hrounds (Nat.not_lt_zero _)
  | [], pos, rounds + 1, peer, _, hchoked, _, hshows => by
    rw [waitLoop]
    refine Triple.bind running_flowing fun b => Triple.assume fun hb => ?_
    subst hb
    refine Triple.ite (fun _ => ?_) fun h => absurd (by rw [hchoked]; rfl) h
    have hunchoke : Shows stream pos (frame [1]) := hshows
    refine Triple.bind (peerReadMessage_flowing hunchoke (by decide)) fun r =>
      Triple.assume fun hr => ?_
    subst hr
    exact Triple.pure fun s hs => ⟨rfl, hs⟩
  | msg :: greeting, pos, rounds + 1, peer, hrounds, hchoked, hmsgs, hshows => by
    obtain ⟨⟨hlen, hid⟩, hrest⟩ := List.forall_mem_cons.mp hmsgs
    rw [frames, List.flatMap_cons, List.append_assoc] at hshows
    rw [waitLoop, frames, List.flatMap_cons, List.append_assoc, List.length_append, ← Nat.add_assoc,
      Nat.add_assoc (frame msg).length]
    refine Triple.bind running_flowing fun b => Triple.assume fun hb => ?_
    subst hb
    refine Triple.ite (fun _ => ?_) fun h => absurd (by rw [hchoked]; rfl) h
    refine Triple.bind (peerReadMessage_flowing hshows.front hlen) fun r =>
      Triple.assume fun hr => ?_
    subst hr
    have hstill := hear_choked hchoked hid
    have hnext := waitLoop_flowing greeting (Nat.lt_of_succ_lt_succ hrounds) hstill hrest
      hshows.rest
    rw [List.foldl_cons]
    dsimp only
    refine Triple.ite (fun h255 => ?_) fun h255 => ?_
    · have hsame : hear peer msg = peer := if_pos h255
      rw [hsame] at hnext ⊢
      exact hnext
    · have hheard : hear peer msg = handleMessage peer (readAs msg).1 (readAs msg).2 :=
        if_neg h255
      rw [← hheard, if_pos hstill]
      exact hnext

/-- A round of `peer_receive_block` for a message that is skipped. -/
theorem receiveLoop_skipped {index begin : UInt32} {length rounds : Nat} {P : Net → Prop}
    {Q : Option Bytes → Net → Prop} (hskipped : Skipped index begin length msg)
    (hnext : Triple P (receiveLoop index begin length rounds) Q (fun _ => False))
    (hread : Triple R peerReadMessage (fun r s => r = some (readAs msg) ∧ P s) (fun _ => False)) :
    Triple R (receiveLoop index begin length (rounds + 1)) Q (fun _ => False) := by
  rw [receiveLoop]
  refine Triple.bind hread fun r => Triple.assume fun hr => ?_
  subst hr
  cases msg with
  | nil => exact Triple.ite (fun _ => hnext) fun h => absurd rfl h
  | cons id payload =>
    dsimp only [readAs]
    refine Triple.ite (fun _ => hnext) fun _ => Triple.ite (fun h7 => ?_) fun h7 => ?_
    · subst h7
      refine Triple.ite (fun hshort => ?_) fun hlong => Triple.ite (fun hmatch => ?_) fun _ => hnext
      · exact absurd ⟨payload, .inr ⟨rfl, hshort⟩⟩ hskipped.1
      · exact absurd (isBlock_iff.mpr ⟨Nat.not_lt.mp hlong, hmatch.1, hmatch.2.1, hmatch.2.2, rfl⟩)
          (hskipped.2 _)
    · refine Triple.ite (fun h0 => ?_) fun _ => hnext
      subst h0
      exact absurd ⟨payload, .inl rfl⟩ hskipped.1

/-- The message that holds a block. -/
def pieceMessage (index begin : UInt32) (block : Bytes) : Bytes :=
  7 :: (htonl index ++ htonl begin ++ block)

theorem length_pieceMessage (index begin : UInt32) (block : Bytes) :
    (pieceMessage index begin block).length = 9 + block.length := by
  rw [pieceMessage, List.length_cons, List.length_append]
  show 8 + block.length + 1 = _
  omega

/-- The loop of `peer_receive_block` returns the block behind messages that it skips. -/
theorem receiveLoop_flowing {index begin : UInt32} {block : Bytes}
    (hblock : 9 + block.length < 2 ^ 32) : ∀ (noise : List Bytes) {pos rounds : Nat},
    noise.length < rounds →
    (∀ msg ∈ noise, msg.length < 2 ^ 32 ∧ Skipped index begin block.length msg) →
    Shows stream pos (frames noise ++ frame (pieceMessage index begin block)) →
    Triple (Flowing stream pos
        ((frames noise ++ frame (pieceMessage index begin block)).length + m) n)
      (receiveLoop index begin block.length rounds)
      (fun r s => r = some block ∧ Flowing stream
        (pos + (frames noise ++ frame (pieceMessage index begin block)).length) m n s)
      (fun _ => False)
  | _, _, 0, hrounds, _, _ => absurd hrounds (Nat.not_lt_zero _)
  | [], pos, rounds + 1, _, _, hshows => by
    rw [receiveLoop]
    have hpiece : Shows stream pos (frame (pieceMessage index begin block)) := hshows
    refine Triple.bind (peerReadMessage_flowing hpiece
      (by rw [length_pieceMessage]; exact hblock)) fun r => Triple.assume fun hr => ?_
    subst hr
    obtain ⟨hlong, hindex, hbegin, hlength, hbytes⟩ :=
      isBlock_iff.mp (show IsBlock index begin block.length (pieceMessage index begin block) block
        from ⟨rfl, rfl⟩)
    refine Triple.ite (fun h => absurd h (by decide)) fun _ => ?_
    refine Triple.ite (fun _ => ?_) fun h => absurd rfl h
    refine Triple.ite (fun hshort => absurd hshort (Nat.not_lt.mpr hlong)) fun _ => ?_
    refine Triple.ite (fun _ => ?_) fun h => absurd ⟨hindex, hbegin, hlength⟩ h
    exact Triple.pure fun s hs => ⟨congrArg some hbytes.symm, hs⟩
  | msg :: noise, pos, rounds + 1, hrounds, hmsgs, hshows => by
    obtain ⟨⟨hlen, hskipped⟩, hrest⟩ := List.forall_mem_cons.mp hmsgs
    rw [frames, List.flatMap_cons, List.append_assoc] at hshows
    rw [frames, List.flatMap_cons, List.append_assoc, List.length_append, ← Nat.add_assoc,
      Nat.add_assoc (frame msg).length]
    exact receiveLoop_skipped hskipped (receiveLoop_flowing hblock noise
      (Nat.lt_of_succ_lt_succ hrounds) hrest hshows.rest)
      (peerReadMessage_flowing hshows.front hlen)

/-- There are no more messages than bytes in their frames. -/
theorem length_le_frames : ∀ msgs : List Bytes, msgs.length ≤ (frames msgs).length
  | [] => Nat.zero_le _
  | msg :: msgs => by
    have hrest := length_le_frames msgs
    rw [frames, List.flatMap_cons, List.length_append, length_frame, ← frames, List.length_cons]
    omega

/-- A script that delivers so many bytes allows as many rounds. -/
theorem Flowing.length_recvs {s : Net} (h : Flowing stream pos m n s) :
    m ≤ s.conn.recvs.length :=
  Nat.le_trans h.recvs.enough List.countP_le_length

/-- `peer_wait_for_unchoke`. -/
theorem peerWaitForUnchoke_flowing {greeting : List Bytes}
    (hmsgs : ∀ msg ∈ greeting, msg.length < 2 ^ 32 ∧ (readAs msg).1 ≠ 1)
    (hshows : Shows stream pos (frames greeting ++ frame [1])) :
    Triple (Flowing stream pos ((frames greeting ++ frame [1]).length + m) n)
      (peerWaitForUnchoke ⟨none, true⟩)
      (fun r s => r = some { greeting.foldl hear ⟨none, true⟩ with choked := false } ∧
        Flowing stream (pos + (frames greeting ++ frame [1]).length) m n s)
      (fun _ => False) := by
  refine Triple.bind (Triple.get (Q := fun s s' => s' = s ∧
    Flowing stream pos ((frames greeting ++ frame [1]).length + m) n s) fun s hs => ⟨rfl, hs⟩)
    fun s => Triple.of_eq fun s' hs => ?_
  obtain ⟨rfl, hs⟩ := hs
  have hle := length_le_frames greeting
  have hrecvs := hs.length_recvs
  rw [List.length_append] at hrecvs
  refine (waitLoop_flowing greeting (by omega) rfl hmsgs hshows).pre ?_
  rintro _ rfl
  exact hs

/-- `peer_receive_block`. -/
theorem peerReceiveBlock_flowing {index begin : UInt32} {block : Bytes} {noise : List Bytes}
    (hblock : 9 + block.length < 2 ^ 32)
    (hmsgs : ∀ msg ∈ noise, msg.length < 2 ^ 32 ∧ Skipped index begin block.length msg)
    (hshows : Shows stream pos (frames noise ++ frame (pieceMessage index begin block))) :
    Triple (Flowing stream pos
        ((frames noise ++ frame (pieceMessage index begin block)).length + m) n)
      (peerReceiveBlock index begin block.length)
      (fun r s => r = some block ∧ Flowing stream
        (pos + (frames noise ++ frame (pieceMessage index begin block)).length) m n s)
      (fun _ => False) := by
  refine Triple.bind (Triple.get (Q := fun s s' => s' = s ∧ Flowing stream pos
    ((frames noise ++ frame (pieceMessage index begin block)).length + m) n s)
    fun s hs => ⟨rfl, hs⟩) fun s => Triple.of_eq fun s' hs => ?_
  obtain ⟨rfl, hs⟩ := hs
  have hle := length_le_frames noise
  have hrecvs := hs.length_recvs
  rw [List.length_append] at hrecvs
  refine (receiveLoop_flowing hblock noise (by omega) hmsgs hshows).pre ?_
  rintro _ rfl
  exact hs

end Messages

end CourseWork.Torrent
