import CourseWork.Lib.Sha1
import CourseWork.Torrent.Tracker

/-!
# The URL of the tracker

When the URL that goes to libcurl carries the parameters of the request. The text is cut off
at the end of the buffer, and a `?` is appended to every announce URL.
-/

namespace CourseWork.Torrent
open CLib Bencode

section

variable {tor : TorrentT} {peerId : Bytes}

/-! ## The text -/

/-- The announce URL, without one the empty string. -/
def announceUrl (tor : TorrentT) : Bytes := tor.announce.getD []

/-- The parameters of the client. -/
def clientParameters (tor : TorrentT) (peerId : Bytes) : List Bytes :=
  [ascii "info_hash=" ++ urlEncode tor.infoHash, ascii "peer_id=" ++ urlEncode peerId,
    ascii "port=" ++ Numeral.print 10 clientPort, ascii "uploaded=0", ascii "downloaded=0",
    ascii "left=" ++ Numeral.print 10 tor.totalLength.toNat, ascii "compact=1",
    ascii "event=started"]

/-- The text is the announce URL, a `?`, and the parameters with `&` between them. -/
theorem urlText_eq (tor : TorrentT) (peerId : Bytes) :
    urlText tor peerId =
      announceUrl tor ++ 63 :: [38].intercalate (clientParameters tor peerId) := by
  have hhash : ascii "?info_hash=" = 63 :: ascii "info_hash=" := by decide +kernel
  have hpeer : ascii "&peer_id=" = 38 :: ascii "peer_id=" := by decide +kernel
  have hport : ascii "&port=" = 38 :: ascii "port=" := by decide +kernel
  have hleft : ascii "&uploaded=0&downloaded=0&left=" =
      38 :: (ascii "uploaded=0" ++ 38 :: (ascii "downloaded=0" ++ 38 :: ascii "left=")) := by
    decide +kernel
  have hevent : ascii "&compact=1&event=started" =
      38 :: (ascii "compact=1" ++ 38 :: ascii "event=started") := by decide +kernel
  rw [urlText, clientParameters, announceUrl, hhash, hpeer, hport, hleft, hevent]
  simp only [List.intercalate_cons_cons, List.intercalate_singleton, List.append_assoc,
    List.cons_append, List.nil_append]

theorem length_urlEncode {data : Bytes} (h : data.length = 20) : (urlEncode data).length = 60 := by
  rw [urlEncode, Url.length_percentEncode, List.length_take, h]
  rfl

theorem decode_urlEncode {data : Bytes} (h : data.length = 20) :
    Url.percentDecode (urlEncode data) = some data := by
  rw [urlEncode, Url.percentDecode_percentEncode, List.take_of_length_le (by omega)]

theorem length_urlText (hhash : tor.infoHash.length = 20) (hpeer : peerId.length = 20) :
    (urlText tor peerId).length =
      (announceUrl tor).length + 205 + (Numeral.print 10 tor.totalLength.toNat).length := by
  have hlengths : (ascii "?info_hash=").length = 11 ∧ (ascii "&peer_id=").length = 9 ∧
      (ascii "&port=").length = 6 ∧ (Numeral.print 10 clientPort).length = 5 ∧
      (ascii "&uploaded=0&downloaded=0&left=").length = 30 ∧
      (ascii "&compact=1&event=started").length = 24 := by decide +kernel
  obtain ⟨h1, h2, h3, h4, h5, h6⟩ := hlengths
  simp only [urlText, List.length_append, length_urlEncode hhash, length_urlEncode hpeer, h1, h2,
    h3, h4, h5, h6, announceUrl]
  omega

/-- No parameter of the client holds a `&`. -/
theorem amp_not_mem_clientParameters (tor : TorrentT) (peerId : Bytes) :
    ∀ p ∈ clientParameters tor peerId, 38 ∉ p := by
  have hencoded : ∀ data, 38 ∉ urlEncode data := fun data =>
    Url.not_mem_percentEncode (by decide) (by decide) _
  have hdecimal : ∀ n, 38 ∉ Numeral.print 10 n := fun n h => by
    have hdigit := Numeral.isDigit_of_mem_print (by decide) (by decide) h
    exact absurd hdigit (by decide)
  have hfixed : 38 ∉ ascii "info_hash=" ∧ 38 ∉ ascii "peer_id=" ∧ 38 ∉ ascii "port=" ∧
      38 ∉ ascii "uploaded=0" ∧ 38 ∉ ascii "downloaded=0" ∧ 38 ∉ ascii "left=" ∧
      38 ∉ ascii "compact=1" ∧ 38 ∉ ascii "event=started" := by decide +kernel
  obtain ⟨h1, h2, h3, h4, h5, h6, h7, h8⟩ := hfixed
  simp only [clientParameters, List.mem_cons, List.not_mem_nil, or_false]
  rintro p (rfl | rfl | rfl | rfl | rfl | rfl | rfl | rfl)
  · simp only [List.mem_append, h1, hencoded, or_self, not_false_eq_true]
  · simp only [List.mem_append, h2, hencoded, or_self, not_false_eq_true]
  · simp only [List.mem_append, h3, hdecimal, or_self, not_false_eq_true]
  · exact h4
  · exact h5
  · simp only [List.mem_append, h6, hdecimal, or_self, not_false_eq_true]
  · exact h7
  · exact h8

/-! ## The parameters in the URL -/

/-- The parameters that are read from a URL: those of the announce URL, and the others, in
any order. -/
structure HoldsParameters (tor : TorrentT) (peerId : Bytes) (read others : List Bytes) : Prop where
  split : read.Perm (Url.parameters (announceUrl tor) ++ others)
  infoHash : ∃ value, ascii "info_hash=" ++ value ∈ others ∧
    Url.percentDecode value = some tor.infoHash
  peerId : ∃ value, ascii "peer_id=" ++ value ∈ others ∧ Url.percentDecode value = some peerId
  left : ascii "left=" ++ Numeral.print 10 tor.totalLength.toNat ∈ others

/-- The URL is not cut off, and it holds the parameters. -/
structure CarriesParameters (tor : TorrentT) (peerId url : Bytes) : Prop where
  whole : url = urlText tor peerId
  parameters : ∃ others, HoldsParameters tor peerId (Url.parameters url) others

/-- Behind an announce URL without query the parameters are those of the client. -/
theorem holdsParameters_text (hhash : tor.infoHash.length = 20) (hpeer : peerId.length = 20)
    (hquery : 63 ∉ announceUrl tor) :
    HoldsParameters tor peerId (Url.parameters (urlText tor peerId))
      (clientParameters tor peerId) := by
  have hsplit : Url.parameters (urlText tor peerId) = clientParameters tor peerId := by
    rw [urlText_eq, Url.parameters_append hquery,
      List.splitOn_intercalate _ (amp_not_mem_clientParameters tor peerId) (List.cons_ne_nil _ _)]
  refine ⟨?_, ⟨urlEncode tor.infoHash, ?_, decode_urlEncode hhash⟩,
    ⟨urlEncode peerId, ?_, decode_urlEncode hpeer⟩, ?_⟩
  · rw [hsplit, Url.parameters_eq_nil hquery, List.nil_append]
  · exact List.mem_cons_self
  · exact List.mem_cons_of_mem _ List.mem_cons_self
  · iterate 5 apply List.mem_cons_of_mem
    exact List.mem_cons_self

/-- The first byte is another one than that of `info_hash`. -/
def OtherHead (s : Bytes) : Prop := s.head?.any (· != 105) = true

theorem OtherHead.append {s : Bytes} (h : OtherHead s) (x : Bytes) : OtherHead (s ++ x) := by
  cases s with
  | nil => cases h
  | cons c s => exact h

theorem otherHead_clientParameters (tor : TorrentT) (peerId : Bytes) :
    ∀ p ∈ (clientParameters tor peerId).tail, OtherHead p := by
  have hfixed : OtherHead (ascii "peer_id=") ∧ OtherHead (ascii "port=") ∧
      OtherHead (ascii "uploaded=0") ∧ OtherHead (ascii "downloaded=0") ∧
      OtherHead (ascii "left=") ∧ OtherHead (ascii "compact=1") ∧
      OtherHead (ascii "event=started") := by
    unfold OtherHead
    decide +kernel
  obtain ⟨h2, h3, h4, h5, h6, h7, h8⟩ := hfixed
  simp only [clientParameters, List.tail_cons, List.mem_cons, List.not_mem_nil, or_false]
  rintro p (rfl | rfl | rfl | rfl | rfl | rfl | rfl)
  · exact h2.append _
  · exact h3.append _
  · exact h4
  · exact h5
  · exact h6.append _
  · exact h7
  · exact h8

/-- Behind a query part `?info_hash=` becomes a piece of the last parameter of the announce URL,
and no other one carries the hash. -/
theorem not_holdsParameters_text (hquery : 63 ∈ announceUrl tor) (others : List Bytes) :
    ¬HoldsParameters tor peerId (Url.parameters (urlText tor peerId)) others := by
  obtain ⟨base, q, hurl, hbase⟩ := List.eq_append_cons_of_mem hquery
  obtain ⟨hash, rest, hclient⟩ : ∃ hash rest, clientParameters tor peerId = hash :: rest :=
    ⟨_, _, rfl⟩
  have hamp := amp_not_mem_clientParameters tor peerId
  have hheads := otherHead_clientParameters tor peerId
  rw [hclient] at hamp hheads
  obtain ⟨before, last, hown, hread⟩ := Url.parameters_append_twice hbase q hamp
  rintro ⟨hsplit, ⟨value, hvalue, _⟩, _, _⟩
  rw [urlText_eq, hclient, hurl, hread, hown, List.append_assoc,
    List.perm_append_left_iff] at hsplit
  -- The hash is in the lengthened parameter, and that one takes the place of `last`.
  have hmem : ascii "info_hash=" ++ value ∈ (last ++ 63 :: hash) :: rest :=
    hsplit.mem_iff.mpr (List.mem_cons_of_mem _ hvalue)
  have hhead : ¬OtherHead (ascii "info_hash=" ++ value) := by
    have hascii : ascii "info_hash=" = 105 :: ascii "nfo_hash=" := by decide +kernel
    rw [hascii]
    exact fun h => Bool.false_ne_true h
  have hlong : ascii "info_hash=" ++ value = last ++ 63 :: hash :=
    (List.mem_cons.mp hmem).resolve_right fun h => hhead (hheads _ h)
  have hlast : last ∈ (last ++ 63 :: hash) :: rest := hsplit.mem_iff.mpr List.mem_cons_self
  have hne : last ≠ last ++ 63 :: hash := fun h => by
    have hlength := congrArg List.length h
    rw [List.length_append, List.length_cons] at hlength
    omega
  have hother : OtherHead last := hheads _ ((List.mem_cons.mp hlast).resolve_left hne)
  rw [hlong] at hhead
  exact hhead (hother.append _)

/-! ## The URL that is requested -/

/-- A URL behind an announce URL with a query part does not carry its parameters. -/
theorem not_carriesParameters (hquery : 63 ∈ announceUrl tor) (url : Bytes) :
    ¬CarriesParameters tor peerId url := by
  rintro ⟨hwhole, others, hothers⟩
  rw [hwhole] at hothers
  exact not_holdsParameters_text hquery others hothers

/-- The URL carries its parameters exactly if the announce URL has no query part and leaves
room for the text. -/
theorem trackerUrl_carries_iff (hhash : tor.infoHash.length = 20) (hpeer : peerId.length = 20) :
    CarriesParameters tor peerId (trackerUrl tor peerId) ↔
      63 ∉ announceUrl tor ∧
        (announceUrl tor).length + (Numeral.print 10 tor.totalLength.toNat).length ≤ 1842 := by
  have hlength := length_urlText hhash hpeer
  constructor
  · intro hcarries
    have hfits : (urlText tor peerId).length ≤ 2047 := by
      have hcut := congrArg List.length hcarries.whole
      rw [trackerUrl, List.length_take] at hcut
      have hroom : urlLen - 1 = 2047 := rfl
      omega
    exact ⟨fun hquery => not_carriesParameters hquery _ hcarries, by omega⟩
  · rintro ⟨hquery, hroom⟩
    have hwhole : trackerUrl tor peerId = urlText tor peerId := by
      rw [trackerUrl]
      exact List.take_of_length_le (by rw [hlength]; show _ ≤ 2047; omega)
    refine ⟨hwhole, clientParameters tor peerId, ?_⟩
    rw [hwhole]
    exact holdsParameters_text hhash hpeer hquery

end

/-- A torrent of one byte with an announce URL. -/
def announceTorrent (announce : Bytes) : TorrentT where
  announce := some announce
  comment := none
  creationDate := 0
  createdBy := none
  infoHash := List.replicate 20 38
  name := none
  pieceLength := 1
  numPieces := 1
  pieces := List.replicate 20 0
  files := [⟨[ascii "unknown"], 1⟩]
  totalLength := 1

/-- The announce URL is `http://t/a`, and each byte of the hash is a `&`. -/
theorem trackerUrl_carries_iff_short :
    CarriesParameters (announceTorrent (ascii "http://t/a")) (List.replicate 20 48)
      (trackerUrl (announceTorrent (ascii "http://t/a")) (List.replicate 20 48)) :=
  (trackerUrl_carries_iff (by decide) (by decide)).mpr (by decide +kernel)

/-! ## An announce URL with a query part -/

/-- The dictionary of a torrent file of one byte with an announce URL. -/
def announceRoot (announce : Bytes) : Ben :=
  .dict (.cons (ascii "announce") (.str announce)
    (.cons (ascii "info") (.dict (.cons (ascii "length") (.int 1)
      (.cons (ascii "piece length") (.int 1)
      (.cons (ascii "pieces") (.str (List.replicate 20 0)) .nil)))) .nil))

/-- It is accepted with this announce URL. -/
theorem load_announceRoot {announce : Bytes}
    (h : (bencodeEncode (announceRoot announce)).length < 2 ^ 63) :
    ∃ tor, torrentLoadFromMemory Sha1.sha1 (bencodeEncode (announceRoot announce)) =
      .ok (some tor) ∧ announceUrl tor = cstr announce ∧ tor.infoHash.length = 20 := by
  rw [torrentLoadFromMemory_encode _ h]
  exact ⟨_, rfl, rfl, rfl⟩

/-- With the announce URL `http://t/a?k=1` the hash ends up in the parameter `k`. -/
theorem trackerUrl_loses_infoHash :
    ∃ data tor peerId, torrentLoadFromMemory Sha1.sha1 data = .ok (some tor) ∧
      tor.infoHash.length = 20 ∧ peerId.length = 20 ∧
      ¬CarriesParameters tor peerId (trackerUrl tor peerId) := by
  obtain ⟨tor, hload, hannounce, hhash⟩ : ∃ tor, torrentLoadFromMemory Sha1.sha1
      (bencodeEncode (announceRoot (ascii "http://t/a?k=1"))) = .ok (some tor) ∧
      announceUrl tor = cstr (ascii "http://t/a?k=1") ∧ tor.infoHash.length = 20 :=
    load_announceRoot (by decide +kernel)
  have hquery : 63 ∈ announceUrl tor := by
    rw [hannounce]
    decide +kernel
  exact ⟨_, tor, List.replicate 20 48, hload, hhash, List.length_replicate,
    not_carriesParameters hquery _⟩

end CourseWork.Torrent
