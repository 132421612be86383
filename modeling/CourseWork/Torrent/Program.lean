import CourseWork.Lib.Snprintf
import CourseWork.Torrent.HonestPeer
import CourseWork.Torrent.Publish
import CourseWork.Torrent.TrackerResponse

/-!
# The torrent client

`main`, from its options to its end: the torrent from a file or from standard input, the peers
of the tracker, the output, and the download. All allocations succeed.
-/

namespace CourseWork.Torrent
open CLib Bencode Prog

/-! ## Input -/

/-- Standard input: what it delivers, and whether an error ends it. -/
structure Stdin where
  bytes : Bytes
  fails : Bool

/-- The loop of `read_stdin` on `length` bytes of input, with `size` of them in a buffer of
`capacity`. `fread` fills the buffer as far as there is input, and its result becomes an
`int`. -/
def readLoop (length : Nat) : Nat → Nat → Nat → Nat
  | 0, _, size => size
  | fuel + 1, capacity, size =>
    let n := toInt (min (capacity - size) (length - size))
    if n > 0 then
      readLoop length fuel (if size + n.toNat = capacity then capacity * 2 else capacity)
        (size + n.toNat)
    else size

/-- `TORRENT_BUFFER_CAPACITY`. -/
def torrentBufferCapacity : Nat := 4096

/-- `read_stdin`. Each round takes at least a byte. -/
def readStdin (input : Stdin) : Bytes :=
  if input.fails then []
  else input.bytes.take
    (readLoop input.bytes.length (input.bytes.length + 1) torrentBufferCapacity 0)

/-! ## The program -/

/-- What the program finds outside. `file` reads a file, if it can be opened. -/
structure Host where
  stdin : Stdin
  file : Bytes → Option Bytes
  rand : Nat → Nat
  curl : Option (Bytes → Transfer)
  fs : Fs
  stdout : OutStream
  clock : List UInt64
  env : Surroundings

/-- The bytes that `load_torrent` gets; empty if there are none. -/
def Host.source (host : Host) (args : Args) : Bytes :=
  if args.useStdin then readStdin host.stdin
  else match args.inputFile with
    | some path => (host.file path).getD []
    | none => []

/-- `load_torrent`; `.ok none` if it fails. -/
def loadTorrent (sha1 : Bytes → Bytes) (host : Host) (args : Args) :
    Except Fault (Option TorrentT) :=
  if host.source args = [] then .ok none
  else torrentLoadFromMemory sha1 (host.source args)

/-- `generate_peer_id`, up to the terminator. -/
def generatePeerId (rand : Nat → Nat) : Bytes :=
  ascii "-qB4390-" ++ (List.range 12).map fun k => UInt8.ofNat (48 + rand k % 10)

/-- `out_ctx` and `use_tar`. -/
def OutputContext.output : OutputContext → Output
  | .storage st => .storage st
  | .tar tw => .tar tw

/-- How `main` ends: before the download, after it, in it, or undefined. -/
inductive Ending
  | exited (status : Int)
  | finished (piecesLeft : Int) (w : World)
  | stopped (e : Stop) (w : World)
  | undefined

/-- `main` from the call of `download_pieces` on. -/
def download (sha1 : Bytes → Bytes) (host : Host) (tor : TorrentT) (peers : List PeerT)
    (ctx : OutputContext) : Ending :=
  match run sha1 tor peers (generatePeerId host.rand) host.env ctx.output with
  | (.ok left, w) => .finished left w
  | (.error e, w) => .stopped e w

/-- `main` from the call of `tracker_get_peers` on. -/
def findPeers (sha1 : Bytes → Bytes) (host : Host) (args : Args) (tor : TorrentT) : Ending :=
  match trackerGetPeers host.curl tor (generatePeerId host.rand) with
  | .error _ => .undefined
  | .ok (peerCount, peers) =>
    if peerCount ≤ 0 then .exited 1
    else
      match setupOutputContext host.fs host.stdout host.clock args.output tor with
      | (.undefined, _) => .undefined
      | (.failed, _) => .exited 1
      | (.opened ctx, _) => download sha1 host tor (peers.getD []) ctx

/-- `main`. -/
def main (sha1 : Bytes → Bytes) (host : Host) (opts : List Opt) : Ending :=
  match parseArgs opts with
  | none => .exited 1
  | some args =>
    match loadTorrent sha1 host args with
    | .error _ => .undefined
    | .ok none => .exited 1
    | .ok (some tor) => findPeers sha1 host args tor

/-! ## Reading -/

section Reading

/-- The buffer is not full, and at least half of it was needed. -/
structure Doubling (capacity size : Nat) : Prop where
  room : size < capacity
  needed : capacity ≤ 2 * size ∨ capacity = torrentBufferCapacity

theorem toInt_natCast_pos {n : Nat} (h : n < 2 ^ 31) : toInt n = n :=
  toInt_of_le (show n ≤ 2147483647 by omega)

/-- The loop ends with all of the input in the buffer. -/
theorem readLoop_eq {length : Nat} (hlength : length < 2 ^ 32) : ∀ {fuel capacity size : Nat},
    Doubling capacity size → size ≤ length → length - size < fuel →
      readLoop length fuel capacity size = length
  | fuel + 1, capacity, size, hcap, hsize, hfuel => by
    obtain ⟨hroom, hneeded⟩ := hcap
    have hinitial : torrentBufferCapacity = 4096 := rfl
    have hint : toInt (min (capacity - size) (length - size)) =
        (min (capacity - size) (length - size) : Nat) := toInt_natCast_pos (by omega)
    rw [readLoop, hint, Int.toNat_natCast]
    by_cases hend : size = length
    · rw [if_neg (by omega), hend]
    · rw [if_pos (by omega)]
      refine readLoop_eq hlength ?_ (by omega) (by omega)
      split
      · exact ⟨by omega, by omega⟩
      · exact ⟨by omega, by omega⟩

/-- Up to 4 GiB, whatever the input is read in, all of it is read. -/
theorem readStdin_eq {input : Stdin} (hfails : input.fails = false)
    (hlength : input.bytes.length < 2 ^ 32) : readStdin input = input.bytes := by
  rw [readStdin, hfails, if_neg Bool.false_ne_true,
    readLoop_eq hlength ⟨by decide, .inr rfl⟩ (Nat.zero_le _) (by omega), List.take_length]

end Reading

/-! ## Published torrents -/

/-- The torrent file is where the options say. -/
def Host.Offers (host : Host) (args : Args) (data : Bytes) : Prop :=
  if args.useStdin then host.stdin = ⟨data, false⟩
  else ∃ path, args.inputFile = some path ∧ host.file path = some data

/-- No write to a file that was opened fails. -/
def Fs.WritesReliably (fs : Fs) : Prop :=
  ∀ calls path outcomes, fs.fopen calls path = some outcomes → outcomes = []

/-- What the download has left in the world. -/
def Ending.world : Ending → Option World
  | .finished _ w => some w
  | .stopped _ w => some w
  | _ => none

/-- What is in the directory when the program is at its end: nothing but what was published, all
of it after a success, unless a peer has found other bytes with the hash of a piece. -/
def Ending.Faithful (sha1 : Bytes → Bytes) (pub : Publication) (dir : Bytes) (ending : Ending) :
    Prop :=
  ∀ w, ending.world = some w → ∃ st, w.out = .storage st ∧
    (Forged sha1 pub w.log ∨ PartlyDelivered pub dir st ∧
      (ending = .finished 0 w → Delivered pub dir st))

section Published

variable {sha1 : Bytes → Bytes} {pub : Publication} {dir : Bytes} {host : Host} {args : Args}

theorem Host.Offers.source {data : Bytes} (h : host.Offers args data)
    (hlength : data.length < 2 ^ 32) : host.source args = data := by
  unfold Host.Offers at h
  unfold Host.source
  split at h
  · next hstdin =>
    rw [if_pos hstdin, h]
    exact readStdin_eq rfl hlength
  · next hfile =>
    obtain ⟨path, hpath, hdata⟩ := h
    rw [if_neg hfile, hpath]
    dsimp only
    rw [hdata, Option.getD_some]

/-- From standard input or from a file, the torrent is loaded as it was published. -/
theorem loadTorrent_published (hsha1 : ∀ x, (sha1 x).length = 20) (hpub : pub.Valid)
    (hlength : (pub.metainfo sha1).length < 2 ^ 32)
    (hoffers : host.Offers args (pub.metainfo sha1)) :
    loadTorrent sha1 host args = .ok (some (pub.torrent sha1)) := by
  have hne : pub.metainfo sha1 ≠ [] := nofun
  rw [loadTorrent, hoffers.source hlength, if_neg hne]
  exact load_metainfo hsha1 hpub (by omega)

theorem openFiles_reliably {fs : Fs} (hfs : fs.WritesReliably) {extractDir : Option Bytes} :
    ∀ {tfs : List FileT} {calls calls' : List FsCall} {o : UInt64} {files : List FileInfo},
      openFiles fs extractDir calls o tfs = (.opened files, calls') →
      ∀ fi ∈ files, fi.fp.outcomes = []
  | [], _, _, _, _, h => by
    cases h
    exact fun _ hfi => absurd hfi List.not_mem_nil
  | tf :: tfs, calls, calls', o, files, h => by
    rw [openFiles] at h
    split at h
    · cases h
    · cases h
    · dsimp only at h
      split at h
      · cases h
      · next outcomes hfopen =>
        split at h
        · next files' calls2 hrest =>
          cases h
          exact List.forall_mem_cons.mpr
            ⟨hfs _ _ _ hfopen, openFiles_reliably hfs hrest⟩
        · cases h
        · cases h

/-- An output in a directory is the storage that is opened there. -/
theorem setupOutputContext_dir {ctx : OutputContext} {calls : List FsCall} {tor : TorrentT}
    (hfs : host.fs.WritesReliably) (hdir : args.output.extractDir = some dir)
    (h : setupOutputContext host.fs host.stdout host.clock args.output tor =
      (.opened ctx, calls)) :
    ∃ st, ctx = .storage st ∧ storageOpen host.fs args.output tor = (.opened st, calls) ∧
      ∀ fi ∈ st.files, fi.fp.outcomes = [] := by
  unfold setupOutputContext at h
  rw [if_pos (.inr (by rw [hdir]; rfl))] at h
  split at h
  · cases h
  · split at h
    · next st calls' hopen =>
      cases h
      refine ⟨st, rfl, hopen, ?_⟩
      unfold storageOpen at hopen
      split at hopen
      · cases hopen
      · split at hopen
        · next files calls'' hfiles =>
          cases hopen
          exact openFiles_reliably hfs hfiles
        · cases hopen
        · cases hopen
    · cases h
    · cases h

/-- The download of a published torrent. -/
theorem download_faithful (hsha1 : ∀ x, (sha1 x).length = 20) (hpub : pub.Valid)
    (hstore : pub.Storable dir) (hdir : args.output.extractDir = some dir) {st : Storage}
    {calls : List FsCall}
    (hopen : storageOpen host.fs args.output (pub.torrent sha1) = (.opened st, calls))
    (hreliable : ∀ fi ∈ st.files, fi.fp.outcomes = []) (peers : List PeerT) :
    (download sha1 host (pub.torrent sha1) peers (.storage st)).Faithful sha1 pub dir := by
  obtain ⟨st', hout, hrun⟩ := run_published hsha1 hpub hstore hdir hopen hreliable peers
    (generatePeerId host.rand) host.env
  rw [download, OutputContext.output]
  generalize run sha1 (pub.torrent sha1) peers (generatePeerId host.rand) host.env
    (.storage st) = r at hout hrun ⊢
  obtain ⟨result, w⟩ := r
  cases result with
  | ok left =>
    intro w' hw'
    cases hw'
    refine ⟨st', hout, hrun.imp_right fun h => ⟨h.1, fun heq => h.2 ?_⟩⟩
    cases heq
    rfl
  | error e =>
    intro w' hw'
    cases hw'
    exact ⟨st', hout, hrun.imp_right fun h => ⟨h.1, nofun⟩⟩

/-- However the program ends that is given a published torrent and a directory, and whatever
trackers, peers, the network and the file system do before the files are open: the files in the
directory have nothing but published bytes and holes, and they are complete if it has reported
that no piece is missing. -/
theorem main_faithful (hsha1 : ∀ x, (sha1 x).length = 20) (hpub : pub.Valid)
    (hstore : pub.Storable dir) (hlength : (pub.metainfo sha1).length < 2 ^ 32) {opts : List Opt}
    (hargs : parseArgs opts = some args) (hoffers : host.Offers args (pub.metainfo sha1))
    (hdir : args.output.extractDir = some dir) (hfs : host.fs.WritesReliably) :
    (main sha1 host opts).Faithful sha1 pub dir := by
  have hnone : ∀ ending : Ending, ending.world = none → ending.Faithful sha1 pub dir := by
    intro ending hworld w hw
    rw [hworld] at hw
    cases hw
  rw [main, hargs]
  dsimp only
  rw [loadTorrent_published hsha1 hpub hlength hoffers]
  dsimp only
  rw [findPeers]
  split
  · exact hnone _ rfl
  · split
    · exact hnone _ rfl
    · split
      · exact hnone _ rfl
      · exact hnone _ rfl
      · next ctx calls hsetup =>
        obtain ⟨st, rfl, hopen, hreliable⟩ := setupOutputContext_dir hfs hdir hsetup
        exact download_faithful hsha1 hpub hstore hdir hopen hreliable _

end Published

/-- A file of one byte. -/
def bytePublication : Publication where
  announce := ascii "http://t/a"
  comment := none
  creationDate := none
  createdBy := none
  name := ascii "a"
  pieceLength := 1
  contents := .single [7]

/-- What a tracker answers with a list of peers. -/
def trackerReply (interval : Int64) (peers : List PeerT) : Ben :=
  .dict (.cons (ascii "interval") (.int interval)
    (.cons (ascii "peers") (.str (peers.flatMap PeerT.bytes)) .nil))

/-- Its torrent is at standard input. The tracker lists two peers: the first one cannot be
reached. -/
def byteHost : Host where
  stdin := ⟨bytePublication.metainfo Sha1.sha1, false⟩
  file _ := none
  rand _ := 0
  curl := some fun _ => .done 200 [bencodeEncode (trackerReply 1800 [⟨1, 1⟩, ⟨2, 2⟩])]
  fs := .reliable
  stdout := ⟨[], []⟩
  clock := []
  env := ⟨none, [none, some (bytePeer (bytePublication.torrent Sha1.sha1))], fun _ _ => 0⟩

theorem bytePublication_valid : bytePublication.Valid :=
  ⟨by decide, by decide, by decide, by decide⟩

theorem bytePublication_storable : bytePublication.Storable (ascii "out") where
  plain := by
    simp only [Publication.files, bytePublication, List.mem_singleton, forall_eq, PlainPath]
    decide
  distinct := List.nodup_singleton _
  fits := by decide

/-- From standard input into a directory. -/
theorem main_faithful_byte :
    (main Sha1.sha1 byteHost [.extractDir (ascii "out")]).Faithful Sha1.sha1 bytePublication
      (ascii "out") :=
  main_faithful (fun _ => rfl) bytePublication_valid bytePublication_storable
    (by decide +kernel) rfl rfl rfl (fun _ _ _ h => (Option.some.inj h).symm)

/-! ## Peers from the tracker -/

/-- The tracker answers the request for a torrent with these peers, in whatever chunks. -/
def Host.Lists (host : Host) (tor : TorrentT) (peers : List PeerT) : Prop :=
  ∃ perform interval chunks, host.curl = some perform ∧
    perform (trackerUrl tor (generatePeerId host.rand)) = .done 200 chunks ∧
    chunks.flatten = bencodeEncode (trackerReply interval peers) ∧
    chunks.flatten.length < 2 ^ 63 ∧ peers.length ≤ maxPeers

/-- The download gets to its end with the first peers without a signal, and the next one is
honest: the connection is made, and the peer has what is missing then. -/
def HonestAfter (sha1 : Bytes → Bytes) (tor : TorrentT) (myPeerId : Bytes) (env : Surroundings)
    (out : Output) (first : List PeerT) : Prop :=
  ∃ left w remote handshake greeting blocks requests,
    run sha1 tor first myPeerId env out = (.ok left, w) ∧ w.net.flag = none ∧
    w.net.answers[w.net.attempts]? = some (some remote) ∧
    Honest sha1 tor myPeerId (missing tor w.piecesDone) remote handshake greeting blocks requests

section Delivered

variable {sha1 : Bytes → Bytes} {pub : Publication} {dir : Bytes} {host : Host} {args : Args}

theorem ntohs_htons (n : UInt16) (s : Bytes) : ntohs (htons n ++ s) = n := by
  apply UInt16.toNat_inj.mp
  have hn := n.toNat_lt
  simp only [ntohs, htons, List.cons_append, List.nil_append, List.take_succ_cons, List.take_zero,
    List.foldl_cons, List.foldl_nil, UInt16.toNat_add, UInt16.toNat_mul, UInt8.toNat_toUInt16,
    UInt16.toNat_toUInt8, UInt16.toNat_shiftRight, UInt16.toNat_ofNat, Nat.shiftRight_eq_div_pow,
    Nat.reduceMod, Nat.reducePow, Nat.zero_mul, Nat.zero_mod, Nat.zero_add]
  omega

/-- Six bytes belong to one peer. -/
theorem PeerT.bytes_append_inj {p q : PeerT} {s t : Bytes} (h : p.bytes ++ s = q.bytes ++ t) :
    p = q ∧ s = t := by
  rw [PeerT.bytes, PeerT.bytes] at h
  obtain ⟨hbytes, hrest⟩ := List.append_inj h rfl
  obtain ⟨hip, hport⟩ := List.append_inj hbytes rfl
  have hip' := congrArg (fun s => ntohl (s ++ [])) hip
  have hport' := congrArg (fun s => ntohs (s ++ [])) hport
  rw [ntohl_htonl, ntohl_htonl] at hip'
  rw [ntohs_htons, ntohs_htons] at hport'
  cases p
  cases q
  exact ⟨congrArg₂ _ hip' hport', hrest⟩

theorem PeerT.flatMap_bytes_inj : ∀ {ps qs : List PeerT},
    ps.flatMap PeerT.bytes = qs.flatMap PeerT.bytes → ps = qs
  | [], [], _ => rfl
  | [], _ :: _, h => nomatch h
  | _ :: _, [], h => nomatch h
  | p :: ps, q :: qs, h => by
    rw [List.flatMap_cons, List.flatMap_cons] at h
    obtain ⟨hpq, hrest⟩ := PeerT.bytes_append_inj h
    rw [hpq, flatMap_bytes_inj hrest]

theorem PeerT.length_flatMap_bytes (peers : List PeerT) :
    (peers.flatMap PeerT.bytes).length = 6 * peers.length := by
  induction peers with
  | nil => rfl
  | cons p peers ih =>
    rw [List.flatMap_cons, List.length_append, ih, List.length_cons]
    show 6 + 6 * peers.length = _
    omega

/-- The peers that a tracker lists are the ones that are tried, in their order. -/
theorem trackerGetPeers_lists {tor : TorrentT} {peers : List PeerT} (h : host.Lists tor peers) :
    trackerGetPeers host.curl tor (generatePeerId host.rand) = .ok (peers.length, some peers) := by
  obtain ⟨perform, interval, chunks, hcurl, hdone, hchunks, hlength, hmax⟩ := h
  have hhead : ∃ s, bencodeEncode (trackerReply interval peers) = 100 :: s := ⟨_, rfl⟩
  obtain ⟨s, hs⟩ := hhead
  have hdecode : bencodeDecode (bencodeEncode (trackerReply interval peers)) =
      .ok (some (trackerReply interval peers)) :=
    bencodeDecode_iff.mpr (canonical_spells_strtol (hchunks ▸ hlength) (encodeObj_spells _))
  have hcut : ¬(CutString chunks.flatten ∨ CutInt chunks.flatten) := by
    rw [hchunks, hs]
    rintro (hcut | hcut)
    · exact absurd hcut.head (by decide)
    · exact absurd hcut.head (by decide)
  have hstring : peersString (responseOf chunks.flatten) = some (peers.flatMap PeerT.bytes) := by
    rw [hchunks, responseOf, hdecode]
    rfl
  obtain ⟨peers', hcount, hbytes, hslice⟩ :=
    slicePeers_ok (PeerT.length_flatMap_bytes peers) hmax
  rw [PeerT.flatMap_bytes_inj hbytes] at hslice
  have hne : chunks.flatten ≠ [] := by
    rw [hchunks, hs]
    exact List.cons_ne_nil _ _
  rw [hcurl, trackerGetPeers_decoded ⟨chunks.flatten, hlength⟩ hne hcut rfl hdone, hstring]
  exact hslice

/-- A published torrent reaches the directory: if the tracker lists a peer that turns out honest
after the ones before it, the program reports success, and every file is on disk as it was
published, unless a peer before it has found other bytes with the hash of a piece. -/
theorem main_delivers (hsha1 : ∀ x, (sha1 x).length = 20) (hpub : pub.Valid)
    (hstore : pub.Storable dir) (hlength : (pub.metainfo sha1).length < 2 ^ 32) {opts : List Opt}
    (hargs : parseArgs opts = some args) (hoffers : host.Offers args (pub.metainfo sha1))
    (hdir : args.output.extractDir = some dir) (hfs : host.fs.WritesReliably)
    (first later : List PeerT) (p : PeerT)
    (hlists : host.Lists (pub.torrent sha1) (first ++ p :: later)) {st : Storage}
    {calls : List FsCall}
    (hsetup : setupOutputContext host.fs host.stdout host.clock args.output (pub.torrent sha1) =
      (.opened (.storage st), calls))
    (hhonest : HonestAfter sha1 (pub.torrent sha1) (generatePeerId host.rand) host.env
      (.storage st) first) :
    ∃ w st', main sha1 host opts = .finished 0 w ∧ w.out = .storage st' ∧
      (Forged sha1 pub w.log ∨ Delivered pub dir st') := by
  obtain ⟨left, w, remote, handshake, greeting, blocks, requests, hfirst, hflag, hanswer, hpeer⟩ :=
    hhonest
  have hzero := run_honest hpub.downloadable first later p host.env (.storage st) trivial left w
    hfirst hflag remote hanswer handshake greeting blocks requests hpeer
  obtain ⟨st0, heq, hopen, hreliable⟩ := setupOutputContext_dir hfs hdir hsetup
  obtain rfl : st = st0 := by cases heq; rfl
  obtain ⟨st', hout, hrun⟩ := run_published hsha1 hpub hstore hdir hopen hreliable
    (first ++ p :: later) (generatePeerId host.rand) host.env
  have hmain : main sha1 host opts =
      download sha1 host (pub.torrent sha1) (first ++ p :: later) (.storage st) := by
    rw [main, hargs]
    dsimp only
    rw [loadTorrent_published hsha1 hpub hlength hoffers]
    dsimp only
    rw [findPeers, trackerGetPeers_lists hlists]
    dsimp only
    rw [if_neg (by simp only [List.length_append, List.length_cons]; omega), hsetup]
    rfl
  rw [hmain, download, OutputContext.output]
  generalize run sha1 (pub.torrent sha1) (first ++ p :: later) (generatePeerId host.rand) host.env
    (.storage st) = r at hzero hout hrun ⊢
  obtain ⟨result, w'⟩ := r
  obtain rfl : result = .ok 0 := hzero
  exact ⟨w', st', rfl, hout, hrun.imp_right fun h => h.2 rfl⟩

end Delivered

/-- The file that is opened for it. -/
def publishedStorage : Storage where
  files := [⟨ascii "out/a", 0, 1, ⟨[], []⟩⟩]
  totalLength := 1
  pieceLength := 1
  extractDir := some (ascii "out")

theorem setupOutputContext_byte :
    setupOutputContext byteHost.fs byteHost.stdout byteHost.clock ⟨none, some (ascii "out")⟩
      (bytePublication.torrent Sha1.sha1) = (.opened (.storage publishedStorage),
        [.mkdir (ascii "out"), .fopen (ascii "out/a")]) := rfl

theorem missing_byte :
    missing (bytePublication.torrent Sha1.sha1)
      (run Sha1.sha1 (bytePublication.torrent Sha1.sha1) [⟨1, 1⟩] (generatePeerId fun _ => 0)
        byteHost.env (.storage publishedStorage)).2.piecesDone = [0] := by decide +kernel

theorem honestAfter_byte :
    HonestAfter Sha1.sha1 (bytePublication.torrent Sha1.sha1) (generatePeerId byteHost.rand)
      byteHost.env (.storage publishedStorage) [⟨1, 1⟩] :=
  ⟨1, _, _, _, _, _, _, Prod.ext (by decide +kernel) rfl, by decide +kernel, rfl,
    missing_byte ▸ honest_bytePeer rfl (by decide +kernel) (by decide +kernel)⟩

/-- The second peer has the byte. -/
theorem main_delivers_byte :
    ∃ w st', main Sha1.sha1 byteHost [.extractDir (ascii "out")] = .finished 0 w ∧
      w.out = .storage st' ∧ (Forged Sha1.sha1 bytePublication w.log ∨
        Delivered bytePublication (ascii "out") st') :=
  main_delivers (fun _ => rfl) bytePublication_valid bytePublication_storable
    (by decide +kernel) rfl rfl rfl (fun _ _ _ h => (Option.some.inj h).symm) [⟨1, 1⟩] []
    ⟨2, 2⟩ ⟨_, 1800, _, rfl, rfl, List.append_nil _, by decide +kernel, by decide⟩
    setupOutputContext_byte honestAfter_byte

end CourseWork.Torrent
