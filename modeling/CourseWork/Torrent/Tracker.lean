import CourseWork.Lib.Url
import CourseWork.Torrent.BencodeBounds
import CourseWork.Torrent.Peer

/-!
# Tracker

The `tracker` module: the URL of the request, the callback that collects the response, and
the peers in it. Only libcurl is a parameter; all allocations succeed.
-/

namespace CourseWork.Torrent
open CLib CheckedMemory Bencode

/-! ## The request -/

/-- `url_encode`. -/
def urlEncode (data : Bytes) : Bytes := Url.percentEncode (data.take 20)

/-- `CLIENT_PORT`. -/
def clientPort : Nat := 60703

/-- `URL_LEN`. -/
def urlLen : Nat := 2048

/-- The text that `snprintf` writes, as far as there is room for it. -/
def urlText (tor : TorrentT) (peerId : Bytes) : Bytes :=
  tor.announce.getD [] ++ ascii "?info_hash=" ++ urlEncode tor.infoHash ++ ascii "&peer_id=" ++
    urlEncode peerId ++ ascii "&port=" ++ Numeral.print 10 clientPort ++
    ascii "&uploaded=0&downloaded=0&left=" ++ Numeral.print 10 tor.totalLength.toNat ++
    ascii "&compact=1&event=started"

/-- The string in `url`. -/
def trackerUrl (tor : TorrentT) (peerId : Bytes) : Bytes := (urlText tor peerId).take (urlLen - 1)

/-! ## The response -/

/-- `memory_t`: all bytes at `data`, and `size`. -/
structure Memory where
  data : Bytes
  size : Nat

/-- `write_callback`. `realloc` keeps the first `size` bytes, and those behind are assigned. -/
def writeCallback (contents : Bytes) (mem : Memory) : Nat × Memory :=
  let realsize := contents.length
  (realsize, ⟨mem.data.take mem.size ++ contents ++ [0], mem.size + realsize⟩)

/-- What `curl_easy_perform` comes to: an error, or an HTTP code and the chunks of a body. -/
inductive Transfer where
  | failed
  | done (httpCode : Int) (chunks : List Bytes)

/-- The calls of the callback. The transfer fails if one returns another number than the
size of its chunk. -/
def receive : List Bytes → Memory → Option Memory
  | [], mem => some mem
  | contents :: chunks, mem =>
    let (n, mem) := writeCallback contents mem
    if n = contents.length then receive chunks mem else none

/-! ## The peers -/

/-- The loop of `bencode_dict_get`. -/
def ObjPairs.get : Nat → ObjPairs → Bytes → Checked (Option Obj)
  | 0, _, _ => .ok none
  | _ + 1, .nil, _ => .error .uninitialised
  | count + 1, .cons k value pairs, key =>
    if cstr k = key then .ok (some value) else ObjPairs.get count pairs key

/-- The tag of an object. -/
def objType : Obj → Checked BenType
  | .mk none _ => .error .uninitialised
  | .mk (some type) _ => .ok type

/-- `bencode_dict_get` on an object. -/
def objDictGet (dict : Obj) (key : Bytes) : Checked (Option Obj) := do
  if (← objType dict) ≠ .dict then return none
  else
    match dict with
    | .mk _ (.dict pairs count) => ObjPairs.get count pairs key
    | _ => .error .uninitialised

/-- `bencode_string_data` on an object with the tag `BEN_STRING`. -/
def objStringData : Obj → Checked Bytes
  | .mk _ (.string data) => .ok data
  | _ => .error .uninitialised

/-- The loop over the peers, from the index `i` on. The product `i * 6` is one of `int`s. -/
def copyPeers (peersData : Bytes) : Nat → Nat → Checked (List PeerT)
  | _, 0 => .ok []
  | i, n + 1 =>
    if 2 ^ 31 ≤ i * 6 then .error .intOverflow
    else do
      let ip ← copy peersData (i * 6) 4
      let port ← copy peersData (i * 6 + 4) 2
      let peers ← copyPeers peersData (i + 1) n
      return ⟨ntohl ip, ntohs port⟩ :: peers

/-- The peers in the string under `peers`: the count, and the array at `*peers_out`. -/
def slicePeers (peersData : Bytes) : Checked (Int × Option (List PeerT)) :=
  if peersData.length % 6 ≠ 0 then .ok (-1, none)
  else do
    -- The quotient becomes an `int`.
    let peerCount := (peersData.length / 6 : Int).bmod (2 ^ 32)
    let peers ← copyPeers peersData 0 peerCount.toNat
    return (peerCount, some peers)

/-- What `tracker_get_peers` does with a decoded object. -/
def peersFrom : Option Obj → Checked (Int × Option (List PeerT))
  | none => return (-1, none)
  | some resp => do
    if (← objType resp) ≠ .dict then return (-1, none)
    else
      match ← objDictGet resp (ascii "peers") with
      | none => return (-1, none)
      | some peersObj =>
        if (← objType peersObj) ≠ .string then return (-1, none)
        else slicePeers (← objStringData peersObj)

/-- `bencode_free`. -/
def bencodeFree : Option Obj → Checked Unit
  | none => .ok ()
  | some obj => freeInternal obj

/-- `tracker_get_peers`. `curl` is `none` if `curl_easy_init` fails, and otherwise performs
the request for a URL. -/
def trackerGetPeers (curl : Option (Bytes → Transfer)) (tor : TorrentT) (peerId : Bytes) :
    Checked (Int × Option (List PeerT)) :=
  match curl with
  | none => .ok (-1, none)
  | some perform =>
    match perform (trackerUrl tor peerId) with
    | .failed => .ok (-1, none)
    | .done httpCode chunks =>
      match receive chunks ⟨[], 0⟩ with
      | none => .ok (-1, none)
      | some chunk =>
        if httpCode ≠ 200 then .ok (-1, none)
        else do
          let resp ← bencodeDecodeAt chunk.data chunk.size
          let result ← peersFrom resp
          bencodeFree resp
          return result

end CourseWork.Torrent
