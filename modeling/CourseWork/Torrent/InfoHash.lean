import CourseWork.Lib.Sha1
import CourseWork.Torrent.Metainfo

/-!
# The bytes behind the info hash

`torrent_load_from_memory` hashes a re-encoding of the decoded info dictionary.
`infoText` is the text that dictionary has in the torrent file, and the two agree
exactly when every numeral of that text is canonical.
-/

namespace CourseWork.Torrent
open CLib Bencode

/-- The text of the value that `parse_dict` stores under the first key equal to `key`:
the bytes between the end of the key and the end of the value. The loop is the one
of `parse_dict`. -/
def valueText : Nat → Bytes → Bytes → Option Bytes
  | 0, _, _ => none
  | _ + 1, [], _ => none
  | fuel + 1, c :: s, key =>
    if c = 101 then none
    else
      match parseString (c :: s) with
      | ⟨some next, some (.str k)⟩ =>
        match parseValue fuel next with
        | .ok ⟨some valNext, some _⟩ =>
          if cstr k = key then some (next.take (next.length - valNext.length))
          else valueText fuel valNext key
        | _ => none
      | _ => none

/-- The raw bytes of the info value in a torrent file. -/
def infoText (data : Bytes) : Option Bytes :=
  valueText (depth data.length) data.tail (ascii "info")

/-- The text under a key is a spelling of the value under that key. -/
theorem valueText_spells (fuel : Nat) {s r key : Bytes} {pairs : Pairs} {v : Ben}
    (h : parsePairs fuel s = .ok (some r, pairs)) (hget : pairs.get key = some v) :
    ∃ raw pre post, valueText fuel s key = some raw ∧ s = pre ++ raw ++ post ∧
      Spells strtolTokens v raw := by
  induction fuel generalizing s pairs with
  | zero => exact nomatch h
  | succ fuel ih =>
    cases s with
    | nil => exact nomatch h
    | cons c s =>
      by_cases hc : c = 101
      · rw [hc, parsePairs, if_pos rfl] at h
        cases h
        exact nomatch hget
      · obtain ⟨next, k, valNext, value, pairs', rfl, hkey, hvalue, hrest⟩ :=
          parsePairs_step hc h
        obtain ⟨t, data, hdata, hs, _, _⟩ := parseString_inv hkey
        cases hdata
        obtain ⟨a, ha, hsa⟩ := parseValue_inv fuel hvalue
        rw [valueText, if_neg hc, hkey]
        simp only [hvalue]
        rw [Pairs.get] at hget
        -- Both walks stop at the first pair with the key.
        split at hget
        · next hk =>
          obtain rfl := Option.some.inj hget
          refine ⟨a, t ++ 58 :: k, valNext, ?_, by rw [hs, ha]; simp, hsa⟩
          rw [if_pos hk, ha, List.length_append, Nat.add_sub_cancel, List.take_left]
        · next hk =>
          obtain ⟨raw, pre, post, hraw, hsplit, hspells⟩ := ih hrest hget
          refine ⟨raw, t ++ 58 :: (k ++ (a ++ pre)), post, by rw [if_neg hk]; exact hraw, ?_,
            hspells⟩
          rw [hs, ha, hsplit]
          simp

/-- The info value of a decoded torrent file is spelled by `infoText`. -/
theorem infoText_spells {data : Bytes} {root info : Ben}
    (hroot : bencodeDecode data = .ok (some root)) (hinfo : infoDict root = some info) :
    ∃ raw pre post, infoText data = some raw ∧ data = pre ++ raw ++ post ∧
      Spells strtolTokens info raw := by
  obtain ⟨pairs, rfl, hget⟩ := infoDict_inv hinfo
  cases bencodeDecode_iff.mp hroot with
  | @dict _ s hs =>
    have hfuel : 3 * s.length + 1 ≤ depth (100 :: (s ++ [101])).length := by
      simp only [depth, List.length_cons, List.length_append]
      omega
    have hpairs := parsePairs_spells pairs [] _ hs hfuel
    obtain ⟨raw, pre, post, hraw, hsplit, hspells⟩ := valueText_spells _ hpairs hget
    exact ⟨raw, 100 :: pre, post, hraw, by rw [hsplit]; simp, hspells⟩

/-- The bytes hashed into `info_hash`, the encoding of the decoded info value, are the
raw bytes of that value in the buffer. -/
def HashesRawBytes (sha1 : Bytes → Bytes) (data : Bytes) (tor : TorrentT) : Prop :=
  ∃ root info, bencodeDecode data = .ok (some root) ∧ infoDict root = some info ∧
    tor.infoHash = sha1 (bencodeEncode info) ∧ infoText data = some (bencodeEncode info)

/-- For every accepted buffer, the bytes hashed into `info_hash` are the raw bytes of the
info value exactly when all numerals of these raw bytes are canonical. -/
theorem info_hash_raw_iff (sha1 : Bytes → Bytes) (buf : Buffer) (tor : TorrentT)
    (h : torrentLoadFromMemory sha1 buf.bytes = .ok (some tor)) :
    HashesRawBytes sha1 buf.bytes tor ↔
      ∃ raw v, infoText buf.bytes = some raw ∧ Spells canonicalTokens v raw := by
  obtain ⟨root, info, hroot, hinfo, hload⟩ := torrentLoad_inv h
  obtain ⟨raw, pre, post, hraw, hsplit, hspells⟩ := infoText_spells hroot hinfo
  have hlen := buf.length_lt
  rw [hsplit, List.length_append, List.length_append] at hlen
  have hiff := reencode_eq_iff (by omega) hspells
  constructor
  · rintro ⟨root', info', hroot', hinfo', _, htext⟩
    obtain rfl : root = root' := by
      rw [hroot] at hroot'
      exact Option.some.inj (Except.ok.inj hroot')
    obtain rfl : info = info' := Option.some.inj (hinfo.symm.trans hinfo')
    obtain rfl : raw = bencodeEncode info := Option.some.inj (hraw.symm.trans htext)
    obtain ⟨v, hv⟩ := hiff.mp rfl
    exact ⟨_, v, hraw, hv⟩
  · rintro ⟨raw', v, hraw', hv⟩
    obtain rfl : raw = raw' := Option.some.inj (hraw.symm.trans hraw')
    refine ⟨root, info, hroot, hinfo, (loadInfo_inv hload).1, ?_⟩
    rw [hraw, ← hiff.mpr ⟨v, hv⟩]
    rfl

/-- A torrent file of one file of length 1, with the length written as given. -/
def lengthFile (len : String) : Bytes := ascii ("d4:infod6:length" ++ len ++ "ee")

/-- What is loaded from it. -/
def lengthTorrent : TorrentT where
  announce := none
  comment := none
  creationDate := 0
  createdBy := none
  infoHash := Sha1.sha1 (ascii "d6:lengthi1ee")
  name := none
  pieceLength := 0
  numPieces := 0
  pieces := []
  files := [⟨[ascii "unknown"], 1⟩]
  totalLength := 1

/-- The file with the length written `i1e`. -/
theorem info_hash_raw_plain :
    HashesRawBytes Sha1.sha1 (lengthFile "i1e") lengthTorrent ↔
      ∃ raw v, infoText (lengthFile "i1e") = some raw ∧ Spells canonicalTokens v raw :=
  info_hash_raw_iff Sha1.sha1 ⟨lengthFile "i1e", by decide +kernel⟩ lengthTorrent
    (by decide +kernel)

/-- With the length written `i01e` the hash is the one of another text. -/
theorem info_hash_leading_zero :
    torrentLoadFromMemory Sha1.sha1 (lengthFile "i01e") = .ok (some lengthTorrent) ∧
      ¬ HashesRawBytes Sha1.sha1 (lengthFile "i01e") lengthTorrent := by
  refine ⟨by decide +kernel, ?_⟩
  rintro ⟨root, info, hroot, hinfo, _, htext⟩
  have hdecode : bencodeDecode (lengthFile "i01e") = .ok (some (.dict (.cons (ascii "info")
      (.dict (.cons (ascii "length") (.int 1) .nil)) .nil))) := by decide +kernel
  rw [hdecode] at hroot
  cases hroot
  have hdict : infoDict (.dict (.cons (ascii "info")
      (.dict (.cons (ascii "length") (.int 1) .nil)) .nil)) =
      some (.dict (.cons (ascii "length") (.int 1) .nil)) := by decide +kernel
  rw [hdict] at hinfo
  cases hinfo
  exact absurd htext (by decide +kernel)

end CourseWork.Torrent
