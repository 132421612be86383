import CourseWork.Torrent.Session

/-!
# Piece availability

What the client knows of the pieces that a peer has. `peer_wait_for_unchoke` takes it from
have and bitfield messages; `peer_receive_block` reads such messages too and drops them.
After every message of a connection, `peer_has_piece` is compared with what the peer has
announced. Histories have the latest message first.
-/

namespace CourseWork.Torrent
open CLib Prog

/-! ## Announcements -/

/-- A message as `peer_read_message` returns it. -/
abbrev Message := UInt8 × Bytes

/-- The index in a have message. -/
def haveIndex (m : Message) : Option UInt32 :=
  if m.1 = 4 ∧ 4 ≤ m.2.length then some (ntohl m.2) else none

/-- The bits in a bitfield message. -/
def bitfieldBits (m : Message) : Option Bytes := if m.1 = 5 then some m.2 else none

/-- The bits in the latest bitfield message. -/
def latestBitfield (history : List Message) : Option Bytes := history.findSome? bitfieldBits

/-- A have message was for index `i`. -/
def HaveAnnounced (history : List Message) (i : UInt32) : Prop :=
  ∃ m ∈ history, haveIndex m = some i

/-- A have message or the latest bitfield announced index `i`. -/
def Announced (history : List Message) (i : UInt32) : Prop :=
  HaveAnnounced history i ∨ ∃ bits, latestBitfield history = some bits ∧ Bitmap.test bits i.toNat

/-- A have message or any bitfield announced index `i`. -/
def EverAnnounced (history : List Message) (i : UInt32) : Prop :=
  HaveAnnounced history i ∨
    ∃ m ∈ history, ∃ bits, bitfieldBits m = some bits ∧ Bitmap.test bits i.toNat

/-- What `peer_has_piece` is to say after the messages of a connection. -/
structure Informed (numPieces : UInt32) (history : List Message) (peer : PeerConnection) : Prop where
  announced : ∀ i < numPieces, Announced history i → peerHasPiece peer i = true
  unannounced : (latestBitfield history).isSome → ∀ i < numPieces, ¬EverAnnounced history i →
    peerHasPiece peer i = false

/-! ## The connection -/

/-- The connection after a message: the loop of `peer_wait_for_unchoke` handles it while the
connection is choked, the loop of `peer_receive_block` ignores it later. -/
def afterMessage (peer : PeerConnection) (m : Message) : PeerConnection :=
  if peer.choked then handleMessage peer m.1 m.2 else peer

/-- The connection after all messages, from the one that `download_pieces` starts with. -/
def peerAfter : List Message → PeerConnection
  | [] => ⟨none, true⟩
  | m :: history => afterMessage (peerAfter history) m

/-- Nothing is lost by a have message for index `i`: no bitfield is stored, or it has a place
for the bit while messages are handled, or the bit is set already. -/
def HarmlessHave (numPieces : UInt32) (peer : PeerConnection) (i : UInt32) : Prop :=
  i < numPieces → ∀ bits, peer.bitfield = some bits →
    if peer.choked then i.toNat / 8 < bits.length else Bitmap.test bits i.toNat

/-- Nothing is lost by a bitfield: while messages are handled, it has the bits of all have
messages; later it adds nothing to the one that is stored, or nothing is stored and all
pieces are announced. -/
def HarmlessBitfield (numPieces : UInt32) (history : List Message) (peer : PeerConnection)
    (sent : Bytes) : Prop :=
  ∀ i < numPieces,
    if peer.choked then HaveAnnounced history i → Bitmap.test sent i.toNat
    else match peer.bitfield with
      | some bits => Bitmap.test sent i.toNat → Bitmap.test bits i.toNat
      | none => EverAnnounced history i ∨ Bitmap.test sent i.toNat

/-- Nothing is lost by a message behind these. -/
def Harmless (numPieces : UInt32) (history : List Message) (m : Message) : Prop :=
  (∀ i, haveIndex m = some i → HarmlessHave numPieces (peerAfter history) i) ∧
  ∀ sent, bitfieldBits m = some sent →
    HarmlessBitfield numPieces history (peerAfter history) sent

/-! ## Messages -/

theorem shiftRight_and_one (b : UInt8) {k : Nat} (hk : k < 8) :
    (b >>> UInt8.ofNat k &&& 1 != 0) = b.toNat.testBit k := by
  have hmod : (UInt8.ofNat k).toNat % 8 = k := by
    rw [UInt8.toNat_ofNat']
    omega
  rw [Bool.eq_iff_iff, bne_iff_ne, ne_eq, ← UInt8.toNat_inj, UInt8.toNat_and,
    UInt8.toNat_shiftRight, hmod, Nat.testBit, bne_iff_ne, ne_eq, Nat.and_comm]
  rfl

/-- `peer_has_piece` reads the stored bitfield; without one the peer has everything. -/
theorem peerHasPiece_iff {peer : PeerConnection} {i : UInt32} :
    peerHasPiece peer i = true ↔
      ∀ bits, peer.bitfield = some bits → Bitmap.test bits i.toNat = true := by
  unfold peerHasPiece
  cases peer.bitfield with
  | none => exact iff_of_true rfl fun _ h => absurd h (by simp)
  | some bits =>
    have htest : (bits.getD (i.toNat / 8) 0 >>> UInt8.ofNat (7 - i.toNat % 8) &&& 1 != 0) =
        Bitmap.test bits i.toNat := by
      rw [shiftRight_and_one _ (by omega), Bitmap.test_eq_testBit]
    dsimp only
    rw [htest]
    split
    · next hbehind =>
      refine iff_of_false (by decide) fun h => ?_
      exact absurd (Bitmap.lt_of_test (h bits rfl)) (Nat.not_lt.mpr hbehind)
    · exact ⟨fun h _ hbits => Option.some.inj hbits ▸ h, fun h => h bits rfl⟩

section Message

variable {peer : PeerConnection} {m : Message} {i : UInt32} {sent : Bytes}

theorem bitfieldBits_of_have (h : haveIndex m = some i) : bitfieldBits m = none := by
  unfold haveIndex at h
  split at h
  · next hid => exact if_neg (by rw [hid.1]; decide)
  · cases h

theorem haveIndex_of_bitfield (h : bitfieldBits m = some sent) : haveIndex m = none := by
  cases hhave : haveIndex m with
  | none => rfl
  | some i =>
    rw [bitfieldBits_of_have hhave] at h
    cases h

/-- A have message sets its bit in the stored bitfield, if there is a place for it. -/
theorem handleMessage_have (h : haveIndex m = some i) :
    (handleMessage peer m.1 m.2).bitfield =
      peer.bitfield.map fun bits => Bitmap.mark bits i.toNat := by
  unfold haveIndex at h
  split at h
  · next hid =>
    obtain rfl := Option.some.inj h
    obtain ⟨hid, hlength⟩ := hid
    unfold handleMessage
    rw [if_neg (by rw [hid]; decide), if_neg (by rw [hid]; decide), if_pos hid, if_pos hlength]
    cases hbits : peer.bitfield with
    | none => exact hbits
    | some bits =>
      dsimp only
      split
      · rfl
      · next hbehind => rw [hbits, Option.map_some, Bitmap.mark, List.set_eq_of_length_le (by omega)]
  · cases h

theorem handleMessage_bitfield (h : bitfieldBits m = some sent) :
    (handleMessage peer m.1 m.2).bitfield = some sent := by
  unfold bitfieldBits at h
  split at h
  · next hid =>
    rw [handleMessage, hid, if_neg (by decide), if_neg (by decide), if_neg (by decide),
      if_pos rfl]
    exact h
  · cases h

theorem handleMessage_other (hhave : haveIndex m = none) (hbits : bitfieldBits m = none) :
    (handleMessage peer m.1 m.2).bitfield = peer.bitfield := by
  have h4 : m.1 = 4 → ¬4 ≤ m.2.length := fun hid hlength => by
    rw [haveIndex, if_pos ⟨hid, hlength⟩] at hhave
    cases hhave
  have h5 : m.1 ≠ 5 := fun hid => by
    rw [bitfieldBits, if_pos hid] at hbits
    cases hbits
  unfold handleMessage
  split
  · rfl
  · split
    · rfl
    · split
      · next hid => rw [if_neg (h4 hid)]
      · rfl

end Message

/-! ## Histories -/

section History

variable {history : List Message} {m : Message} {i : UInt32} {sent : Bytes} {numPieces : UInt32}

theorem haveAnnounced_cons :
    HaveAnnounced (m :: history) i ↔ haveIndex m = some i ∨ HaveAnnounced history i := by
  rw [HaveAnnounced, List.exists_mem_cons_iff, ← HaveAnnounced]

theorem everAnnounced_cons :
    EverAnnounced (m :: history) i ↔ haveIndex m = some i ∨
      (∃ bits, bitfieldBits m = some bits ∧ Bitmap.test bits i.toNat) ∨ EverAnnounced history i := by
  rw [EverAnnounced, haveAnnounced_cons, List.exists_mem_cons_iff, EverAnnounced]
  constructor
  · rintro ((h | h) | h | h)
    · exact .inl h
    · exact .inr (.inr (.inl h))
    · exact .inr (.inl h)
    · exact .inr (.inr (.inr h))
  · rintro (h | h | h | h)
    · exact .inl (.inl h)
    · exact .inr (.inl h)
    · exact .inl (.inr h)
    · exact .inr (.inr h)

theorem latestBitfield_cons :
    latestBitfield (m :: history) = (bitfieldBits m).or (latestBitfield history) := by
  rw [latestBitfield, List.findSome?_cons, latestBitfield]
  cases bitfieldBits m with
  | none => rfl
  | some bits => rfl

/-- The messages of a kind. -/
theorem message_cases (m : Message) :
    (∃ i, haveIndex m = some i ∧ bitfieldBits m = none) ∨
    (∃ sent, haveIndex m = none ∧ bitfieldBits m = some sent) ∨
    (haveIndex m = none ∧ bitfieldBits m = none) := by
  cases hhave : haveIndex m with
  | some i => exact .inl ⟨i, rfl, bitfieldBits_of_have hhave⟩
  | none =>
    cases hbits : bitfieldBits m with
    | some sent => exact .inr (.inl ⟨sent, rfl, rfl⟩)
    | none => exact .inr (.inr ⟨rfl, rfl⟩)

theorem peerAfter_handled (hchoked : (peerAfter history).choked = true) :
    peerAfter (m :: history) = handleMessage (peerAfter history) m.1 m.2 := if_pos hchoked

theorem peerAfter_ignored (hchoked : ¬(peerAfter history).choked = true) :
    peerAfter (m :: history) = peerAfter history := if_neg hchoked

/-- The client makes nothing up: a stored bit was announced. -/
theorem everAnnounced_of_stored : ∀ {history : List Message} {bits : Bytes},
    (peerAfter history).bitfield = some bits → Bitmap.test bits i.toNat = true →
      EverAnnounced history i
  | [], _, hbits, _ => by cases hbits
  | m :: history, bits, hbits, htest => by
    rw [everAnnounced_cons]
    by_cases hchoked : (peerAfter history).choked = true
    · rw [peerAfter_handled hchoked] at hbits
      rcases message_cases m with ⟨j, hhave, _⟩ | ⟨sent, _, hsent⟩ | ⟨hhave, hsent⟩
      · rw [handleMessage_have hhave] at hbits
        obtain ⟨old, hold, rfl⟩ := Option.map_eq_some_iff.mp hbits
        by_cases hij : j = i
        · exact .inl (hhave.trans (congrArg some hij))
        · rw [Bitmap.test_mark_ne fun h => hij (UInt32.toNat_inj.mp h)] at htest
          exact .inr (.inr (everAnnounced_of_stored hold htest))
      · rw [handleMessage_bitfield hsent] at hbits
        exact .inr (.inl ⟨sent, hsent, Option.some.inj hbits ▸ htest⟩)
      · rw [handleMessage_other hhave hsent] at hbits
        exact .inr (.inr (everAnnounced_of_stored hbits htest))
    · rw [peerAfter_ignored hchoked] at hbits
      exact .inr (.inr (everAnnounced_of_stored hbits htest))

theorem announced_cons_have (hhave : haveIndex m = some i) {j : UInt32} :
    Announced (m :: history) j ↔ i = j ∨ Announced history j := by
  rw [Announced, haveAnnounced_cons, latestBitfield_cons, bitfieldBits_of_have hhave, hhave,
    Option.none_or, Option.some_inj, or_assoc, ← Announced]

theorem announced_cons_bitfield (hsent : bitfieldBits m = some sent) :
    Announced (m :: history) i ↔ HaveAnnounced history i ∨ Bitmap.test sent i.toNat = true := by
  rw [Announced, haveAnnounced_cons, latestBitfield_cons, haveIndex_of_bitfield hsent, hsent,
    Option.some_or]
  simp

theorem announced_cons_other (hhave : haveIndex m = none) (hsent : bitfieldBits m = none) :
    Announced (m :: history) i ↔ Announced history i := by
  rw [Announced, haveAnnounced_cons, latestBitfield_cons, hhave, hsent, Option.none_or, Announced]
  simp

theorem everAnnounced_cons_of (h : EverAnnounced history i) : EverAnnounced (m :: history) i :=
  everAnnounced_cons.mpr (.inr (.inr h))

/-- What `Informed` says of one index. -/
def InformedOf (history : List Message) (peer : PeerConnection) (i : UInt32) : Prop :=
  match peer.bitfield with
  | some bits => Announced history i → Bitmap.test bits i.toNat = true
  | none => (latestBitfield history).isSome → EverAnnounced history i

theorem informedOf_some {peer : PeerConnection} {bits : Bytes} (h : peer.bitfield = some bits) :
    InformedOf history peer i ↔ (Announced history i → Bitmap.test bits i.toNat = true) := by
  rw [InformedOf, h]

theorem informedOf_none {peer : PeerConnection} (h : peer.bitfield = none) :
    InformedOf history peer i ↔ ((latestBitfield history).isSome → EverAnnounced history i) := by
  rw [InformedOf, h]

/-- As the client makes nothing up, a stored bitfield only has to have all that is announced;
without one, all pieces have to be announced once a bitfield was received. -/
theorem informed_iff : Informed numPieces history (peerAfter history) ↔
    ∀ i < numPieces, InformedOf history (peerAfter history) i := by
  cases hbits : (peerAfter history).bitfield with
  | some bits =>
    have hhas : ∀ i, peerHasPiece (peerAfter history) i = Bitmap.test bits i.toNat := by
      intro i
      rw [Bool.eq_iff_iff, peerHasPiece_iff, hbits]
      exact ⟨fun h => h bits rfl, fun h _ heq => Option.some.inj heq ▸ h⟩
    constructor
    · intro h i hi
      rw [informedOf_some hbits, ← hhas]
      exact h.announced i hi
    · refine fun h => ⟨fun i hi => ?_, fun _ i hi hnever => ?_⟩
      · rw [hhas, ← informedOf_some hbits]
        exact h i hi
      · rw [hhas, ← Bool.not_eq_true]
        exact fun htest => hnever (everAnnounced_of_stored hbits htest)
  | none =>
    have hhas : ∀ i, peerHasPiece (peerAfter history) i = true := by
      intro i
      rw [peerHasPiece_iff, hbits]
      exact fun _ h => absurd h (by simp)
    constructor
    · intro h i hi
      rw [informedOf_none hbits]
      intro hlatest
      by_contra hnever
      exact absurd ((hhas i).symm.trans (h.unannounced hlatest i hi hnever)) (by decide)
    · refine fun h => ⟨fun i _ _ => hhas i, fun hlatest i hi hnever => ?_⟩
      exact absurd ((informedOf_none hbits).mp (h i hi) hlatest) hnever

/-- A have message loses nothing exactly if it is harmless. -/
theorem informed_have (hhave : haveIndex m = some i)
    (h : ∀ j < numPieces, InformedOf history (peerAfter history) j) :
    (∀ j < numPieces, InformedOf (m :: history) (peerAfter (m :: history)) j) ↔
      HarmlessHave numPieces (peerAfter history) i := by
  have hlatest : latestBitfield (m :: history) = latestBitfield history := by
    rw [latestBitfield_cons, bitfieldBits_of_have hhave, Option.none_or]
  have hself : Announced (m :: history) i := (announced_cons_have hhave).mpr (.inl rfl)
  have hbits : (peerAfter (m :: history)).bitfield = if (peerAfter history).choked = true
      then (peerAfter history).bitfield.map fun bits => Bitmap.mark bits i.toNat
      else (peerAfter history).bitfield := by
    split
    · next hchoked => rw [peerAfter_handled hchoked, handleMessage_have hhave]
    · next hchoked => rw [peerAfter_ignored hchoked]
  unfold HarmlessHave
  cases hstored : (peerAfter history).bitfield with
  | none =>
    have hnone : (peerAfter (m :: history)).bitfield = none := by
      rw [hbits, hstored, Option.map_none, ite_self]
    refine iff_of_true (fun j hj => ?_) fun _ bits hsome => absurd hsome (by simp)
    rw [informedOf_none hnone, hlatest]
    exact fun hsome => everAnnounced_cons_of ((informedOf_none hstored).mp (h j hj) hsome)
  | some bits =>
    rw [hstored, Option.map_some] at hbits
    by_cases hchoked : (peerAfter history).choked = true
    · rw [if_pos hchoked] at hbits
      constructor
      · intro hall hi _ heq
        obtain rfl := Option.some.inj heq
        rw [if_pos hchoked, ← Bitmap.length_mark bits i.toNat]
        exact Bitmap.lt_of_test ((informedOf_some hbits).mp (hall i hi) hself)
      · intro hharmless j hj
        rw [informedOf_some hbits, announced_cons_have hhave]
        rintro (rfl | hannounced)
        · have hplace := hharmless hj bits rfl
          rw [if_pos hchoked] at hplace
          exact Bitmap.test_mark_self hplace
        · by_cases hij : i = j
          · subst hij
            have hplace := hharmless hj bits rfl
            rw [if_pos hchoked] at hplace
            exact Bitmap.test_mark_self hplace
          · rw [Bitmap.test_mark_ne fun heq => hij (UInt32.toNat_inj.mp heq)]
            exact (informedOf_some hstored).mp (h j hj) hannounced
    · rw [if_neg hchoked] at hbits
      constructor
      · intro hall hi _ heq
        obtain rfl := Option.some.inj heq
        rw [if_neg hchoked]
        exact (informedOf_some hbits).mp (hall i hi) hself
      · intro hharmless j hj
        rw [informedOf_some hbits, announced_cons_have hhave]
        rintro (rfl | hannounced)
        · have hset := hharmless hj bits rfl
          rwa [if_neg hchoked] at hset
        · exact (informedOf_some hstored).mp (h j hj) hannounced

/-- A bitfield loses nothing exactly if it is harmless. -/
theorem informed_bitfield (hsent : bitfieldBits m = some sent)
    (h : ∀ j < numPieces, InformedOf history (peerAfter history) j) :
    (∀ j < numPieces, InformedOf (m :: history) (peerAfter (m :: history)) j) ↔
      HarmlessBitfield numPieces history (peerAfter history) sent := by
  refine forall₂_congr fun j hj => ?_
  by_cases hchoked : (peerAfter history).choked = true
  · have hbits : (peerAfter (m :: history)).bitfield = some sent := by
      rw [peerAfter_handled hchoked, handleMessage_bitfield hsent]
    rw [informedOf_some hbits, announced_cons_bitfield hsent, if_pos hchoked]
    exact ⟨fun hall hhave => hall (.inl hhave), fun hhave => Or.rec hhave id⟩
  · rw [if_neg hchoked]
    have hafter := peerAfter_ignored (m := m) hchoked
    cases hstored : (peerAfter history).bitfield with
    | some bits =>
      have hbits := hafter ▸ hstored
      rw [informedOf_some hbits, announced_cons_bitfield hsent]
      -- The bits of the have messages are stored already.
      refine ⟨fun hall htest => hall (.inr htest), fun htest => Or.rec (fun hhave => ?_) htest⟩
      exact (informedOf_some hstored).mp (h j hj) (.inl hhave)
    | none =>
      have hbits := hafter ▸ hstored
      rw [informedOf_none hbits, latestBitfield_cons, hsent, Option.some_or, everAnnounced_cons,
        haveIndex_of_bitfield hsent, hsent]
      simp [or_comm]

/-- Any other message loses nothing. -/
theorem informed_other (hhave : haveIndex m = none) (hsent : bitfieldBits m = none)
    (h : ∀ j < numPieces, InformedOf history (peerAfter history) j) :
    ∀ j < numPieces, InformedOf (m :: history) (peerAfter (m :: history)) j := by
  have hbits : (peerAfter (m :: history)).bitfield = (peerAfter history).bitfield := by
    by_cases hchoked : (peerAfter history).choked = true
    · rw [peerAfter_handled hchoked, handleMessage_other hhave hsent]
    · rw [peerAfter_ignored hchoked]
  intro j hj
  cases hstored : (peerAfter history).bitfield with
  | some bits =>
    rw [informedOf_some (hbits.trans hstored), announced_cons_other hhave hsent]
    exact (informedOf_some hstored).mp (h j hj)
  | none =>
    rw [informedOf_none (hbits.trans hstored), latestBitfield_cons, hsent, Option.none_or]
    exact fun hsome => everAnnounced_cons_of ((informedOf_none hstored).mp (h j hj) hsome)

/-- After one more message the client is informed exactly if the message is harmless. -/
theorem informed_cons_iff (h : Informed numPieces history (peerAfter history)) :
    Informed numPieces (m :: history) (peerAfter (m :: history)) ↔ Harmless numPieces history m := by
  rw [informed_iff] at h ⊢
  unfold Harmless
  rcases message_cases m with ⟨i, hhave, hsent⟩ | ⟨sent, hhave, hsent⟩ | ⟨hhave, hsent⟩
  · rw [informed_have hhave h, hhave, hsent]
    simp
  · rw [informed_bitfield hsent h, hhave, hsent]
    simp
  · rw [hhave, hsent]
    exact iff_of_true (informed_other hhave hsent h) (by simp)

end History

/-! ## Availability -/

/-- `peer_has_piece` says at every point of a connection what the peer has announced, exactly
if every message of the connection is harmless. -/
theorem availability_iff (numPieces : UInt32) (history : List Message) :
    (∀ past, past <:+ history → Informed numPieces past (peerAfter past)) ↔
      ∀ m past, m :: past <:+ history → Harmless numPieces past m := by
  induction history with
  | nil =>
    refine iff_of_true (fun past hpast => ?_) fun m past hpast => ?_
    · rw [List.suffix_nil.mp hpast, informed_iff]
      exact fun i _ => (informedOf_none rfl).mpr fun hlatest => absurd hlatest (by decide)
    · cases List.suffix_nil.mp hpast
  | cons m history ih =>
    constructor
    · intro hall m' past hpast
      rcases List.suffix_cons_iff.mp hpast with heq | hpast
      · obtain ⟨rfl, rfl⟩ := List.cons.inj heq
        exact (informed_cons_iff (hall _ (List.suffix_cons _ _))).mp (hall _ (List.suffix_refl _))
      · exact ih.mp (fun past hpast => hall past (hpast.trans (List.suffix_cons _ _))) m' past hpast
    · intro hall past hpast
      have hinformed := ih.mpr fun m' past hpast =>
        hall m' past (hpast.trans (List.suffix_cons _ _))
      rcases List.suffix_cons_iff.mp hpast with rfl | hpast
      · exact (informed_cons_iff (hinformed _ (List.suffix_refl _))).mpr
          (hall _ _ (List.suffix_refl _))
      · exact hinformed past hpast

/-- A peer that has the first of two pieces, and gets the second one while it sends the
first. -/
def growingPeer : Remote :=
  scriptedPeer (byteTorrent [7, 8])
    (htonl 2 ++ [5, 128] ++ unchokeMessage ++ htonl 5 ++ [4, 0, 0, 0, 1] ++ byteMessage 0 7)
    (List.replicate 9 (.data 99))

/-- The client does not learn of the second piece, and does not ask for it. -/
theorem availability_lost :
    ¬(∀ past, past <:+ [(4, [0, 0, 0, 1]), (1, []), (5, [128])] →
      Informed 2 past (peerAfter past)) ∧
    (byteRun [7, 8] [some growingPeer]).1 = .ok 1 := by
  refine ⟨fun hall => ?_, by decide +kernel⟩
  have hannounced : Announced [(4, [0, 0, 0, 1]), (1, []), (5, [128])] 1 :=
    .inl ⟨_, List.mem_cons_self, by decide⟩
  exact absurd ((hall _ (List.suffix_refl _)).announced 1 (by decide) hannounced) (by decide)

end CourseWork.Torrent
