import CourseWork.Torrent.TrackerUrl

/-!
# The response of the tracker

On which bodies `tracker_get_peers` returns the peers of the compact list, or -1 where
there is none, whatever the chunks are in which the body arrives.
-/

namespace CourseWork.Torrent
open CLib CheckedMemory Bencode

/-! ## The callback -/

theorem receive_terminated : ∀ (chunks : List Bytes) (received : Bytes),
    receive chunks ⟨received ++ [0], received.length⟩ =
      some ⟨received ++ chunks.flatten ++ [0], (received ++ chunks.flatten).length⟩
  | [], received => by rw [receive, List.flatten_nil, List.append_nil]
  | contents :: chunks, received => by
    have ih := receive_terminated chunks (received ++ contents)
    rw [receive, writeCallback]
    dsimp only
    rw [if_pos rfl, List.take_left, ← List.length_append, ih, List.flatten_cons,
      List.append_assoc received]

/-- The chunks of a body add up to the body, with a zero byte behind it. -/
theorem receive_body {chunks : List Bytes} (hne : chunks ≠ []) :
    receive chunks ⟨[], 0⟩ = some ⟨chunks.flatten ++ [0], chunks.flatten.length⟩ := by
  obtain ⟨contents, chunks, rfl⟩ := List.exists_cons_of_ne_nil hne
  have hrest := receive_terminated chunks contents
  rw [receive, writeCallback]
  dsimp only
  rw [if_pos rfl, List.take_nil, List.nil_append, Nat.zero_add, hrest, List.flatten_cons]

/-! ## The decoded response -/

/-- What a body decodes to. -/
def responseOf (body : Bytes) : Option Ben := (bencodeDecode body).toOption.join

theorem responseOf_error {body : Bytes} {e : Bencode.Fault}
    (h : parseValue (depth body.length) body = .error e) : responseOf body = none := by
  rw [responseOf, bencodeDecode, h]
  rfl

theorem responseOf_ok {body : Bytes} {next : Option Bytes} {obj : Option Ben}
    (h : parseValue (depth body.length) body = .ok ⟨next, obj⟩) :
    responseOf body = if next = some [] then obj else none := by
  rw [responseOf, bencodeDecode, h]
  rfl

/-- With a zero byte behind the body the decoder stays inside, and unless the body is a cut
string or integer it finds what the decoder on lists finds. -/
theorem bencodeDecodeAt_terminated (body : Buffer) (hne : body.bytes ≠ [])
    (hcut : ¬(CutString body.bytes ∨ CutInt body.bytes)) :
    bencodeDecodeAt (body.bytes ++ [0]) body.bytes.length =
      .ok ((responseOf body.bytes).map Obj.ofBen) := by
  obtain ⟨data, hlength⟩ := body
  dsimp only at hne hcut ⊢
  cases hr : parseValue (depth data.length) data with
  | error e =>
    obtain ⟨obj, hobj, hnone⟩ := bencodeDecodeAt_error hne [0] hr
    rw [hobj, hnone, responseOf_error hr]
    rfl
  | ok parsed =>
    obtain ⟨next, obj⟩ := parsed
    rw [responseOf_ok hr]
    cases obj with
    | some v =>
      rw [bencodeDecodeAt_some hne [0] hr]
      by_cases hnext : next = some []
      · rw [if_pos hnext, if_pos hnext]
        rfl
      · rw [if_neg hnext, if_neg hnext]
        rfl
    | none =>
      obtain ⟨c, s, rfl⟩ := List.exists_cons_of_ne_nil hne
      have hstart : isValueStart c ≠ true := fun hstart =>
        hcut ((parseValue_assigns_nothing_iff hlength).mp ⟨hstart, next, hr⟩)
      rw [bencodeDecodeAt_none [0] hr, if_neg hstart, ite_self]
      rfl

theorem get_ofPairs (pairs : Pairs) (key : Bytes) :
    ObjPairs.get pairs.length (.ofPairs pairs) key = .ok ((pairs.get key).map Obj.ofBen) := by
  fun_induction Pairs.get pairs key with
  | case1 key => rfl
  | case2 k value pairs =>
    rw [Pairs.length, ObjPairs.ofPairs, ObjPairs.get, if_pos rfl]
    rfl
  | case3 k value pairs key hk ih =>
    rw [Pairs.length, ObjPairs.ofPairs, ObjPairs.get, if_neg hk, ih]

theorem objDictGet_ofBen (v : Ben) (key : Bytes) :
    objDictGet (.ofBen v) key = .ok ((bencodeDictGet v key).map Obj.ofBen) := by
  cases v with
  | str _ => rfl
  | int _ => rfl
  | list _ => rfl
  | dict pairs => exact get_ofPairs pairs key

/-- The string that the lookup of `peers` gives. -/
def peersString (resp : Option Ben) : Option Bytes :=
  bencodeStringData (resp.bind fun dict => bencodeDictGet dict (ascii "peers"))

/-- The string under `peers` is sliced, and without one there are no peers. -/
theorem peersFrom_ofBen (resp : Option Ben) :
    peersFrom (resp.map Obj.ofBen) = (peersString resp).elim (.ok (-1, none)) slicePeers := by
  cases resp with
  | none => rfl
  | some v =>
    rw [Option.map_some, peersFrom, peersString, Option.bind_some, objDictGet_ofBen]
    generalize ascii "peers" = key
    cases v with
    | str _ => rfl
    | int _ => rfl
    | list _ => rfl
    | dict pairs =>
      rw [bencodeDictGet]
      cases pairs.get key with
      | none => rfl
      | some v =>
        cases v with
        | str data =>
          simp only [bind, Except.bind, Option.map_some]
          rfl
        | int _ => rfl
        | list _ => rfl
        | dict _ => rfl

/-! ## The compact list -/

/-- The bytes of a peer in memory. -/
def PeerT.bytes (peer : PeerT) : Bytes := htonl peer.ip ++ htons peer.port

section CopyPeers

variable (peersData : Bytes)

/-- One round of the loop. -/
theorem copyPeers_succ (i n : Nat) (hfits : 6 * (i + 1) ≤ peersData.length)
    (hi : i * 6 < 2 ^ 31) :
    ∃ peer : PeerT, peer.bytes = (peersData.drop (6 * i)).take 6 ∧
      copyPeers peersData i (n + 1) =
        (copyPeers peersData (i + 1) n).bind fun peers => .ok (peer :: peers) := by
  have hip : copy peersData (i * 6) 4 = _ := copy_fits (by omega)
  have hport : copy peersData (i * 6 + 4) 2 = _ := copy_fits (by omega)
  have hdrop : peersData.drop (i * 6 + 4) = (peersData.drop (i * 6)).drop 4 := by
    rw [List.drop_drop]
  refine ⟨⟨ntohl ((peersData.drop (i * 6)).take 4), ntohs ((peersData.drop (i * 6 + 4)).take 2)⟩,
    ?_, ?_⟩
  · rw [PeerT.bytes, htonl_ntohl (by rw [List.length_take, List.length_drop]; omega),
      htons_ntohs (by rw [List.length_take, List.length_drop]; omega), List.take_take,
      List.take_take, hdrop, Nat.mul_comm 6 i]
    exact (List.take_add ..).symm
  · rw [copyPeers, if_neg (by omega), hip, hport]
    rfl

/-- The peers are the consecutive groups of six bytes, as long as the products stay in the
range of `int`. -/
theorem copyPeers_ok : ∀ (i n : Nat), 6 * (i + n) ≤ peersData.length → (i + n - 1) * 6 < 2 ^ 31 →
    ∃ peers, copyPeers peersData i n = .ok peers ∧ peers.length = n ∧
      peers.flatMap PeerT.bytes = (peersData.drop (6 * i)).take (6 * n)
  | _, 0, _, _ => ⟨[], rfl, rfl, rfl⟩
  | i, n + 1, hlength, hlast => by
    obtain ⟨peer, hpeer, hround⟩ := copyPeers_succ peersData i n (by omega) (by omega)
    obtain ⟨peers, hpeers, hcount, hbytes⟩ := copyPeers_ok (i + 1) n (by omega) (by omega)
    refine ⟨peer :: peers, ?_, ?_, ?_⟩
    · rw [hround, hpeers]
      rfl
    · rw [List.length_cons, hcount]
    · have hdrop : peersData.drop (6 * (i + 1)) = (peersData.drop (6 * i)).drop 6 := by
        rw [List.drop_drop]
        congr 1
      rw [List.flatMap_cons, hpeer, hbytes, hdrop, Nat.mul_add, Nat.add_comm (6 * n)]
      exact (List.take_add ..).symm

/-- A larger product is computed in the loop, at the latest for the last peer. -/
theorem copyPeers_overflow : ∀ (i n : Nat), 6 * (i + n) ≤ peersData.length → 0 < n →
    2 ^ 31 ≤ (i + n - 1) * 6 → copyPeers peersData i n = .error .intOverflow
  | _, 0, _, hn, _ => absurd hn (Nat.lt_irrefl 0)
  | i, n + 1, hlength, _, hlast => by
    by_cases hi : 2 ^ 31 ≤ i * 6
    · rw [copyPeers, if_pos hi]
    · obtain ⟨peer, _, hround⟩ := copyPeers_succ peersData i n (by omega) (by omega)
      have hrest := copyPeers_overflow (i + 1) n (by omega) (by omega) (by omega)
      rw [hround, hrest]
      rfl

end CopyPeers

/-- The largest number of peers for which `i * 6` stays in the range of `int`. -/
def maxPeers : Nat := 357913942

theorem slicePeers_ok {s : Bytes} {k : Nat} (hs : s.length = 6 * k) (hk : k ≤ maxPeers) :
    ∃ peers : List PeerT, peers.length = k ∧ peers.flatMap PeerT.bytes = s ∧
      slicePeers s = .ok (k, some peers) := by
  have hmax : k ≤ 357913942 := hk
  have hcount : (s.length / 6 : Int).bmod (2 ^ 32) = k := by
    have hquotient : (s.length / 6 : Int) = k := by omega
    rw [hquotient]
    exact Int.bmod_eq_of_le (by omega) (by omega)
  obtain ⟨peers, hpeers, hlength, hbytes⟩ := copyPeers_ok s 0 k (by omega) (by omega)
  refine ⟨peers, hlength, ?_, ?_⟩
  · rw [hbytes, Nat.mul_zero, List.drop_zero, ← hs, List.take_length]
  · rw [slicePeers, if_neg (by omega), hcount]
    dsimp only
    rw [Int.toNat_natCast, hpeers]
    rfl

/-- For more peers the count is wrong, or the loop computes a product that is too large. -/
theorem slicePeers_tooMany {s : Bytes} {k : Nat} (hs : s.length = 6 * k) (hk : maxPeers < k)
    (peers : Option (List PeerT)) : slicePeers s ≠ .ok (k, peers) := by
  have hmax : 357913942 < k := hk
  have hquotient : (s.length / 6 : Int) = k := by omega
  intro h
  rw [slicePeers, if_neg (by omega), hquotient] at h
  dsimp only at h
  by_cases hcount : (k : Int).bmod (2 ^ 32) = k
  · have hoverflow := copyPeers_overflow s 0 k (by omega) (by omega) (by omega)
    rw [hcount, Int.toNat_natCast, hoverflow] at h
    cases h
  · cases hloop : copyPeers s 0 ((k : Int).bmod (2 ^ 32)).toNat with
    | error e =>
      rw [hloop] at h
      cases h
    | ok found =>
      rw [hloop] at h
      exact hcount (Prod.mk.inj (Except.ok.inj h)).1

/-! ## The result of the request -/

/-- The result for a body: the peers of a compact list, if the lookup of `peers` gives one,
and otherwise -1. -/
def ResultFor (body : Bytes) (result : Int × Option (List PeerT)) : Prop :=
  (∃ s k peers, peersString (responseOf body) = some s ∧ s.length = 6 * k ∧ peers.length = k ∧
    peers.flatMap PeerT.bytes = s ∧ result = ((k : Int), some peers)) ∨
  ((¬∃ s k, peersString (responseOf body) = some s ∧ s.length = 6 * k) ∧ result = (-1, none))

/-- `tracker_get_peers` returns the result for the body, in whatever chunks it arrives. -/
def ReturnsResult (tor : TorrentT) (peerId body : Bytes) : Prop :=
  ∃ result, ResultFor body result ∧ ∀ chunks perform, chunks.flatten = body →
    perform (trackerUrl tor peerId) = .done 200 chunks →
    trackerGetPeers (some perform) tor peerId = .ok result

section

variable {tor : TorrentT} {peerId : Bytes} {perform : Bytes → Transfer} {chunks : List Bytes}

/-- Only the whole body matters. -/
theorem trackerGetPeers_body (hne : chunks.flatten ≠ [])
    (hdone : perform (trackerUrl tor peerId) = .done 200 chunks) :
    trackerGetPeers (some perform) tor peerId =
      (bencodeDecodeAt (chunks.flatten ++ [0]) chunks.flatten.length).bind fun resp =>
        (peersFrom resp).bind fun result => (bencodeFree resp).bind fun _ => .ok result := by
  have hchunks : chunks ≠ [] := by
    rintro rfl
    exact hne rfl
  rw [trackerGetPeers, hdone]
  dsimp only
  rw [receive_body hchunks]
  rfl

theorem bencodeFree_ofBen (resp : Option Ben) : bencodeFree (resp.map Obj.ofBen) = .ok () := by
  cases resp with
  | none => rfl
  | some v => exact freeInternal_ofBen v

/-- The cleanup of a cut string or integer reads a tag that was never assigned. -/
theorem trackerGetPeers_cut (body : Buffer) (hne : body.bytes ≠ [])
    (hcut : CutString body.bytes ∨ CutInt body.bytes) (hchunks : chunks.flatten = body.bytes)
    (hdone : perform (trackerUrl tor peerId) = .done 200 chunks) :
    trackerGetPeers (some perform) tor peerId = .error .uninitialised := by
  rw [trackerGetPeers_body (hchunks ▸ hne) hdone, hchunks, bencodeDecodeAt_cut body hcut]
  rfl

/-- Any other body is decoded and sliced. -/
theorem trackerGetPeers_decoded (body : Buffer) (hne : body.bytes ≠ [])
    (hcut : ¬(CutString body.bytes ∨ CutInt body.bytes)) (hchunks : chunks.flatten = body.bytes)
    (hdone : perform (trackerUrl tor peerId) = .done 200 chunks) :
    trackerGetPeers (some perform) tor peerId =
      (peersString (responseOf body.bytes)).elim (.ok (-1, none)) slicePeers := by
  rw [trackerGetPeers_body (hchunks ▸ hne) hdone, hchunks, bencodeDecodeAt_terminated body hne hcut]
  show (peersFrom ((responseOf body.bytes).map Obj.ofBen)).bind _ = _
  rw [peersFrom_ofBen, bencodeFree_ofBen]
  cases (peersString (responseOf body.bytes)).elim (.ok (-1, none)) slicePeers with
  | error e => rfl
  | ok result => rfl

/-- The result is the one for the body, exactly if the body is no cut string or integer, and a
compact list does not have so many peers that `i * 6` leaves the range of `int`. -/
theorem trackerGetPeers_returns_iff (tor : TorrentT) (peerId : Bytes) (body : Buffer)
    (hne : body.bytes ≠ []) :
    ReturnsResult tor peerId body.bytes ↔
      ¬(CutString body.bytes ∨ CutInt body.bytes) ∧
        ∀ s k, peersString (responseOf body.bytes) = some s → s.length = 6 * k → k ≤ maxPeers := by
  constructor
  · rintro ⟨result, hresult, hall⟩
    have hrun := hall [body.bytes] (fun _ => .done 200 [body.bytes]) List.flatten_singleton rfl
    have hnot : ¬(CutString body.bytes ∨ CutInt body.bytes) := fun hcut => by
      rw [trackerGetPeers_cut body hne hcut List.flatten_singleton rfl] at hrun
      cases hrun
    refine ⟨hnot, fun s k hs hk => ?_⟩
    by_contra hmany
    rw [trackerGetPeers_decoded body hne hnot List.flatten_singleton rfl, hs] at hrun
    rcases hresult with ⟨s', k', peers, hs', hk', _, _, rfl⟩ | ⟨hno, _⟩
    · obtain rfl : s' = s := Option.some.inj (hs'.symm.trans hs)
      obtain rfl : k' = k := by omega
      exact slicePeers_tooMany hk (Nat.lt_of_not_le hmany) _ hrun
    · exact hno ⟨s, k, hs, hk⟩
  · rintro ⟨hnot, hfew⟩
    have hdecoded : ∀ chunks perform, chunks.flatten = body.bytes →
        perform (trackerUrl tor peerId) = .done 200 chunks →
        trackerGetPeers (some perform) tor peerId = _ := fun chunks perform hchunks hdone =>
      trackerGetPeers_decoded body hne hnot hchunks hdone
    cases hs : peersString (responseOf body.bytes) with
    | none =>
      rw [hs] at hdecoded
      refine ⟨(-1, none), .inr ⟨?_, rfl⟩, hdecoded⟩
      rintro ⟨s, _, hs', _⟩
      rw [hs] at hs'
      cases hs'
    | some s =>
      rw [hs] at hdecoded
      by_cases hmultiple : s.length % 6 = 0
      · have hk : s.length = 6 * (s.length / 6) := by omega
        obtain ⟨peers, hlength, hbytes, hslice⟩ := slicePeers_ok hk (hfew s _ hs hk)
        rw [Option.elim_some, hslice] at hdecoded
        exact ⟨_, .inl ⟨s, _, peers, hs, hk, hlength, hbytes, rfl⟩, hdecoded⟩
      · rw [Option.elim_some, slicePeers, if_pos hmultiple] at hdecoded
        refine ⟨(-1, none), .inr ⟨?_, rfl⟩, hdecoded⟩
        rintro ⟨s', k, hs', hk⟩
        obtain rfl : s = s' := Option.some.inj (hs.symm.trans hs')
        omega

end

/-- The body `d5:peers6:` with the peer 127.0.0.1, port 6881, and `e`. -/
def onePeerBody : Bytes := ascii "d5:peers6:" ++ [127, 0, 0, 1, 26, 225] ++ ascii "e"

theorem trackerGetPeers_returns_iff_onePeer :
    ReturnsResult (announceTorrent (ascii "http://t/a")) (List.replicate 20 48) onePeerBody := by
  have hhead : onePeerBody = 100 :: onePeerBody.tail := by decide +kernel
  have hstring : peersString (responseOf onePeerBody) = some [127, 0, 0, 1, 26, 225] := by
    decide +kernel
  refine (trackerGetPeers_returns_iff _ _ ⟨onePeerBody, by decide +kernel⟩ (by decide +kernel)).mpr
    ⟨?_, fun s k hs hk => ?_⟩
  · show ¬(CutString onePeerBody ∨ CutInt onePeerBody)
    rw [hhead]
    rintro (hcut | hcut)
    · exact absurd hcut.head (by decide)
    · exact absurd hcut.head (by decide)
  · rw [hstring] at hs
    cases hs
    have hone : k = 1 := by
      change 6 = 6 * k at hk
      omega
    rw [hone]
    decide

/-- For the body `i5` no result is defined, where the tracker client is to return -1. -/
theorem trackerGetPeers_reads_unassigned :
    trackerGetPeers (some fun _ => .done 200 [[105, 53]]) (announceTorrent (ascii "http://t/a"))
        (List.replicate 20 48) = .error .uninitialised ∧
      ¬ReturnsResult (announceTorrent (ascii "http://t/a")) (List.replicate 20 48) [105, 53] := by
  have hcut : CutString [105, 53] ∨ CutInt [105, 53] := .inr ⟨[53], rfl, by decide⟩
  have hrun : ∀ perform, perform (trackerUrl (announceTorrent (ascii "http://t/a"))
      (List.replicate 20 48)) = .done 200 [[105, 53]] →
      trackerGetPeers (some perform) (announceTorrent (ascii "http://t/a")) (List.replicate 20 48) =
        .error .uninitialised := fun perform hdone =>
    trackerGetPeers_cut ⟨[105, 53], by decide⟩ (by decide) hcut rfl hdone
  refine ⟨hrun _ rfl, ?_⟩
  rintro ⟨result, _, hall⟩
  have hresult := hall [[105, 53]] (fun _ => .done 200 [[105, 53]]) rfl rfl
  rw [hrun _ rfl] at hresult
  cases hresult

end CourseWork.Torrent
