import CourseWork.Torrent.Coverage

/-!
# Downloads to files

What a run of `download_pieces` leaves in the files of the storage. Whatever the peers do and
however the run ends, the files hold the verified pieces, each in its place, and nothing
else: what is read back has the hash of the torrent at every piece that is marked, and zeros
at every other one.
-/

namespace CourseWork.Torrent
open CLib Prog SparseFile Tiling

/-! ## Reading back -/

/-- A file of its declared length; what was never written reads as zeros. -/
def FileInfo.readBack (fi : FileInfo) : Bytes :=
  fi.fp.bytes ++ List.replicate (fi.length.toNat - fi.fp.bytes.length) 0

/-- The files one behind the other. -/
def Storage.image (st : Storage) : Bytes := st.files.flatMap (·.readBack)

/-- What the files hold at the end of a run. -/
structure Stored (sha1 : Bytes → Bytes) (tor : TorrentT) (r : Except Stop Int × World)
    (st : Storage) : Prop where
  out : r.2.out = .storage st
  /-- No file outgrows its declared length. -/
  within : ∀ fi ∈ st.files, fi.fp.bytes.length ≤ fi.length.toNat
  /-- A piece that was handed over is on disk, with the hash of the torrent. -/
  verified : ∀ i ∈ handedIndices r.2.log,
    sha1 (pieceOf tor st.image i) = (tor.pieces.drop (20 * i.toNat)).take 20
  /-- Of any other piece nothing is. -/
  blank : ∀ i, i < tor.numPieces → i ∉ handedIndices r.2.log →
    pieceOf tor st.image i = List.replicate (pieceSize tor i).toNat 0
  /-- The bitmap tells which are which. -/
  marked : ∀ left, r.1 = .ok left → ∀ i, i < tor.numPieces →
    (isDone r.2.piecesDone i = true ↔ i ∈ handedIndices r.2.log)
  /-- After a success every piece is there and no file is short. -/
  complete : r.1 = .ok 0 → (∀ i, i < tor.numPieces → i ∈ handedIndices r.2.log) ∧
    ∀ fi ∈ st.files, fi.fp.bytes.length = fi.length.toNat

/-! ## The writes of a run -/

/-- The storage after some pieces, the latest first. -/
def storeHanded (tor : TorrentT) (st : Storage) : List (UInt32 × Bytes) → Storage
  | [] => st
  | x :: handed => storageWrite (storeHanded tor st handed) x.1 x.2 (pieceSize tor x.1)

/-- The storage holds what was handed over, pieces of the right lengths. -/
structure Stores (tor : TorrentT) (st : Storage) (w : World) : Prop where
  out : w.out = .storage (storeHanded tor st (handedPieces w.log))
  lt : ∀ x ∈ handedPieces w.log, x.1 < tor.numPieces
  length : ∀ x ∈ handedPieces w.log, x.2.length = (pieceSize tor x.1).toNat

section Steps

variable {sha1 : Bytes → Bytes} {tor : TorrentT} {st : Storage}

theorem downloadPiece_stores {peer : PeerConnection} {i : UInt32} :
    Triple (Stores tor st) (downloadPiece sha1 tor peer i) (fun _ => Stores tor st)
      (Stores tor st) := by
  refine downloadPiece_keeps (fun _ _ h => ⟨h.out, h.lt, h.length⟩)
    (fun _ h => ⟨h.out, h.lt, h.length⟩) (fun _ h => h) fun w buf h _ hlength hver => ?_
  have hwritten : w.out.write i buf (pieceSize tor i) =
      some (.storage (storeHanded tor st (handedPieces (.handed i buf :: w.log)))) := by
    rw [h.out]
    rfl
  rw [hwritten]
  refine ⟨nofun, fun out hwrite => ?_⟩
  obtain rfl := Option.some.inj hwrite
  refine ⟨rfl, fun x hx => ?_, fun x hx => ?_⟩
  · rcases List.mem_cons.mp hx with rfl | hx
    · exact lt_numPieces_of_verifyPiece hver
    · exact h.lt x hx
  · rcases List.mem_cons.mp hx with rfl | hx
    · exact hlength
    · exact h.length x hx

end Steps

/-- Wherever a run ends, the storage holds what it was handed. -/
theorem downloadPieces_stores (sha1 : Bytes → Bytes) (tor : TorrentT) (peers : List PeerT)
    (myPeerId : Bytes) (st : Storage) :
    Triple (fun w => w.log = [] ∧ w.out = .storage st)
      (downloadPieces sha1 tor peers myPeerId) (fun _ => Stores tor st) (Stores tor st) := by
  refine (downloadPieces_spec (P := Stores tor st) (Q := Stores tor st) (R := Stores tor st)
    (fun w hw => ?_)
    (allPeers_keep (fun _ _ h => ⟨h.out, h.lt, h.length⟩) (fun _ h => h)
      (Triple.modify fun _ h => ⟨h.out, h.lt, h.length⟩) fun _ _ => downloadPiece_stores)
    (Triple.modify fun w h => ?_)).post fun _ _ h => h.2
  · obtain ⟨hlog, hout⟩ := hw
    have hnone : handedPieces w.log = [] := by rw [hlog]; rfl
    refine ⟨?_, fun x hx => ?_, fun x hx => ?_⟩
    · show w.out = .storage (storeHanded tor st (handedPieces w.log))
      rw [hnone, hout]
      rfl
    · exact absurd (hnone ▸ hx) List.not_mem_nil
    · exact absurd (hnone ▸ hx) List.not_mem_nil
  · rw [h.out]
    exact h

theorem run_stores (sha1 : Bytes → Bytes) (tor : TorrentT) (peers : List PeerT)
    (myPeerId : Bytes) (env : Surroundings) (st : Storage) :
    Stores tor st (run sha1 tor peers myPeerId env (.storage st)).2 := by
  have hstores := downloadPieces_stores sha1 tor peers myPeerId st (env.start (.storage st))
    ⟨rfl, rfl⟩
  unfold run
  generalize downloadPieces sha1 tor peers myPeerId (env.start (.storage st)) = r at *
  obtain ⟨result, w⟩ := r
  cases result with
  | ok left => exact hstores
  | error e => exact hstores

/-! ## The disk -/

/-- The regular files by their paths. -/
abbrev Disk := Bytes → Option Bytes

/-- `fopen` of `storage_open` creates the files or cuts them to nothing. -/
def Disk.create (disk : Disk) (files : List FileInfo) : Disk := fun path =>
  if path ∈ files.map (·.fullPath) then some [] else disk path

/-- The body of the loop of `storage_write`, on the file with the path. -/
def Disk.writeOverlap (pieceStart pieceEnd : UInt64) (data : Bytes) (disk : Disk) (fi : FileInfo) :
    Disk :=
  Function.update disk fi.fullPath ((disk fi.fullPath).map fun bytes =>
    (Torrent.writeOverlap pieceStart pieceEnd data { fi with fp.bytes := bytes }).fp.bytes)

/-- `storage_write` on the disk. -/
def Disk.write (disk : Disk) (st : Storage) (pieceIndex : UInt32) (data : Bytes) (len : UInt32) :
    Disk :=
  let pieceStart := pieceIndex.toUInt64 * st.pieceLength.toUInt64
  let pieceEnd := pieceStart + len.toUInt64
  st.files.foldl (Disk.writeOverlap pieceStart pieceEnd data) disk

/-- The disk after some pieces, the latest first. -/
def Disk.handed (tor : TorrentT) (st : Storage) (disk : Disk) : List (UInt32 × Bytes) → Disk
  | [] => disk
  | x :: handed =>
    (Disk.handed tor st disk handed).write (storeHanded tor st handed) x.1 x.2 (pieceSize tor x.1)

/-- The disk has the files of the storage, and is otherwise as before. -/
structure OnDisk (before : Disk) (st : Storage) (disk : Disk) : Prop where
  files : ∀ fi ∈ st.files, disk fi.fullPath = some fi.fp.bytes
  others : ∀ path, path ∉ st.files.map (·.fullPath) → disk path = before path

section Disk

variable {tor : TorrentT} {before disk : Disk} {st : Storage}

/-- The loop over the files writes each of them, if their paths differ. -/
theorem foldl_writeOverlap (pieceStart pieceEnd : UInt64) (data : Bytes) :
    ∀ {files : List FileInfo} {disk : Disk}, (files.map (·.fullPath)).Nodup →
      (∀ fi ∈ files, disk fi.fullPath = some fi.fp.bytes) →
      (∀ fi ∈ files, files.foldl (Disk.writeOverlap pieceStart pieceEnd data) disk fi.fullPath =
        some (writeOverlap pieceStart pieceEnd data fi).fp.bytes) ∧
      ∀ path, path ∉ files.map (·.fullPath) →
        files.foldl (Disk.writeOverlap pieceStart pieceEnd data) disk path = disk path
  | [], _, _, _ => ⟨List.forall_mem_nil _, fun _ _ => rfl⟩
  | fi :: files, disk, hnodup, h => by
    obtain ⟨hnew, hnodup⟩ := List.nodup_cons.mp hnodup
    obtain ⟨hfi, hfiles⟩ := List.forall_mem_cons.mp h
    have hother : ∀ path, path ≠ fi.fullPath →
        Disk.writeOverlap pieceStart pieceEnd data disk fi path = disk path := fun path hne =>
      Function.update_of_ne hne _ _
    have hself : Disk.writeOverlap pieceStart pieceEnd data disk fi fi.fullPath =
        some (writeOverlap pieceStart pieceEnd data fi).fp.bytes := by
      rw [Disk.writeOverlap, Function.update_self, hfi]
      rfl
    have hstill : ∀ fi' ∈ files, Disk.writeOverlap pieceStart pieceEnd data disk fi fi'.fullPath =
        some fi'.fp.bytes := fun fi' hfi' =>
      (hother _ fun heq => hnew (List.mem_map.mpr ⟨fi', hfi', heq⟩)).trans (hfiles fi' hfi')
    obtain ⟨hrest, hothers⟩ := foldl_writeOverlap pieceStart pieceEnd data hnodup hstill
    refine ⟨List.forall_mem_cons.mpr ⟨?_, hrest⟩, fun path hpath => ?_⟩
    · rw [List.foldl_cons, hothers _ hnew, hself]
    · obtain ⟨hne, hpath⟩ := not_or.mp (mt List.mem_cons.mpr hpath)
      rw [List.foldl_cons, hothers path hpath, hother path hne]

/-- Files that have just been opened are on disk. -/
theorem onDisk_create (before : Disk) (hempty : ∀ fi ∈ st.files, fi.fp.bytes = []) :
    OnDisk before st (before.create st.files) where
  files fi hfi := by
    rw [Disk.create, if_pos (List.mem_map_of_mem hfi), hempty fi hfi]
  others _ hpath := if_neg hpath

theorem storageWrite_fullPath (st : Storage) (i : UInt32) (data : Bytes) (len : UInt32) :
    (storageWrite st i data len).files.map (·.fullPath) = st.files.map (·.fullPath) := by
  rw [storageWrite, List.map_map]
  exact List.map_congr_left fun fi _ => (writeOverlap_unchanged _ _ data fi).fullPath

theorem storeHanded_fullPath (tor : TorrentT) (st : Storage) : ∀ handed : List (UInt32 × Bytes),
    (storeHanded tor st handed).files.map (·.fullPath) = st.files.map (·.fullPath)
  | [] => rfl
  | x :: handed => by
    rw [storeHanded, storageWrite_fullPath, storeHanded_fullPath tor st handed]

/-- What is written to the storage gets to the disk. -/
theorem OnDisk.write (h : OnDisk before st disk) (hnodup : (st.files.map (·.fullPath)).Nodup)
    (i : UInt32) (data : Bytes) (len : UInt32) :
    OnDisk before (storageWrite st i data len) (disk.write st i data len) := by
  obtain ⟨hfiles, hothers⟩ := foldl_writeOverlap (i.toUInt64 * st.pieceLength.toUInt64)
    (i.toUInt64 * st.pieceLength.toUInt64 + len.toUInt64) data hnodup h.files
  constructor
  · intro fi hfi
    obtain ⟨fi, hmem, rfl⟩ := List.mem_map.mp hfi
    rw [(writeOverlap_unchanged _ _ data fi).fullPath]
    exact hfiles fi hmem
  · intro path hmem
    rw [storageWrite_fullPath] at hmem
    rw [Disk.write, hothers path hmem, h.others path hmem]

/-- So does all that a run hands over. -/
theorem OnDisk.handed (h : OnDisk before st disk) (hnodup : (st.files.map (·.fullPath)).Nodup) :
    ∀ handed : List (UInt32 × Bytes),
      OnDisk before (storeHanded tor st handed) (disk.handed tor st handed)
  | [] => h
  | x :: handed =>
    (h.handed hnodup handed).write (storeHanded_fullPath tor st handed ▸ hnodup) x.1 x.2
      (pieceSize tor x.1)

end Disk

/-! ## The payload of a run -/

/-- What was handed over are pieces of a payload that is zero everywhere else. -/
theorem exists_partial_payload {tor : TorrentT} (htiled : Tiled tor) (htor : Downloadable tor)
    {handed : List (UInt32 × Bytes)} (hnodup : (handed.map Prod.fst).Nodup)
    (hlt : ∀ x ∈ handed, x.1 < tor.numPieces)
    (hlength : ∀ x ∈ handed, x.2.length = (pieceSize tor x.1).toNat) :
    ∃ payload, Geometric tor payload ∧ (∀ x ∈ handed, x.2 = pieceOf tor payload x.1) ∧
      ∀ i, i < tor.numPieces → i ∉ handed.map Prod.fst →
        pieceOf tor payload i = List.replicate (pieceSize tor i).toNat 0 := by
  have hpl : 0 < tor.pieceLength.toNat := UInt32.lt_iff_toNat_lt.mp htor.pieceLength_pos
  have htiles := (tiles_blocks_iff hpl).mpr htiled.numPieces_eq
  obtain ⟨data, hdata⟩ := exists_data hnodup
  let piece : Nat → Bytes := fun k =>
    if UInt32.ofNat k ∈ handed.map Prod.fst then data (UInt32.ofNat k)
    else List.replicate (tor.sizeOf k) 0
  have hpiece : ∀ k, k < tor.numPieces.toNat → (piece k).length = tor.sizeOf k := by
    intro k hk
    obtain ⟨hk', hlt⟩ := pieceIndex_lt hk
    dsimp only [piece]
    split
    · next hmem =>
      obtain ⟨x, hx, heq⟩ := List.mem_map.mp hmem
      rw [← heq, ← hdata x hx, hlength x hx, heq, toNat_pieceSize hpl hlt, hk']
    · exact List.length_replicate
  obtain ⟨htotal, hslices⟩ := htiles.slice_flatMap (f := piece) hpiece
  have hof : ∀ i : UInt32, i < tor.numPieces →
      pieceOf tor ((List.range tor.numPieces.toNat).flatMap piece) i = piece i.toNat := by
    intro i hi
    rw [pieceOf, toNat_pieceSize hpl hi]
    exact hslices i.toNat (UInt32.lt_iff_toNat_lt.mp hi)
  refine ⟨_, ⟨hpl, htotal, totalLength_lt htiled htor, htiled.sum_lengths, htiled.numPieces_eq⟩,
    fun x hx => ?_, fun i hi hmem => ?_⟩
  · rw [hof _ (hlt x hx)]
    dsimp only [piece]
    rw [UInt32.ofNat_toNat, if_pos (List.mem_map_of_mem hx), hdata x hx]
  · rw [hof _ hi, toNat_pieceSize hpl hi]
    dsimp only [piece]
    rw [UInt32.ofNat_toNat, if_neg hmem]

/-! ## Files that hold the payload of a run -/

/-- The file is zero wherever no piece was written. -/
def Blank (tor : TorrentT) (done : List UInt32) (fi : FileInfo) : Prop :=
  ∀ k, ¬InPieces tor done (fi.offset.toNat + k) → fi.fp.bytes[k]?.getD 0 = 0

section Image

variable {tor : TorrentT} {payload : Bytes} {files : List FileInfo} {st : Storage}

/-- A write touches its own piece only. -/
theorem blank_storageWrite {done : List UInt32} (hpl : st.pieceLength = tor.pieceLength)
    (h : ∀ fi ∈ st.files, Blank tor done fi) (i : UInt32) (data : Bytes) :
    ∀ fi ∈ (storageWrite st i data (pieceSize tor i)).files, Blank tor (i :: done) fi := by
  intro fi hfi
  obtain ⟨fi, hmem, rfl⟩ := List.mem_map.mp hfi
  clear hfi
  have hsame := writeOverlap_unchanged (i.toUInt64 * st.pieceLength.toUInt64)
    (i.toUInt64 * st.pieceLength.toUInt64 + (pieceSize tor i).toUInt64) data fi
  have hstart := toNat_pieceStart i st.pieceLength
  have hstop := toNat_pieceEnd i st.pieceLength (pieceSize tor i)
  rw [hpl] at hstart hstop
  rw [hpl, hstart, hstop] at hsame
  intro k hk
  rw [hpl] at hk ⊢
  rw [hsame.offset] at hk
  rw [hsame.hole k ?_]
  · exact h fi hmem k fun ⟨j, hj, hjk⟩ => hk ⟨j, List.mem_cons_of_mem _ hj, hjk⟩
  · rcases Nat.lt_or_ge (fi.offset.toNat + k) (i.toNat * tor.pieceLength.toNat) with hlt | hge
    · exact .inl hlt
    · refine .inr (Nat.le_of_not_lt fun hlt => hk ⟨i, List.mem_cons_self, hge, hlt⟩)

/-- The pieces of a payload in the storage, and zeros around them. -/
theorem storeHanded_holds (hgeo : Geometric tor payload)
    (hlengths : ∀ fi ∈ files, fi.length.toNat ≤ 2 ^ 63)
    (hstart : StorageHolds tor payload [] files st) (hempty : ∀ fi ∈ st.files, fi.fp.bytes = []) :
    ∀ {handed : List (UInt32 × Bytes)}, (∀ x ∈ handed, x.1 < tor.numPieces) →
      (∀ x ∈ handed, x.2 = pieceOf tor payload x.1) →
      StorageHolds tor payload (handed.map Prod.fst) files (storeHanded tor st handed) ∧
        ∀ fi ∈ (storeHanded tor st handed).files, Blank tor (handed.map Prod.fst) fi
  | [], _, _ => by
    refine ⟨hstart, fun fi hfi k _ => ?_⟩
    rw [hempty fi hfi, List.getElem?_nil]
    rfl
  | x :: handed, hlt, hpieces => by
    obtain ⟨hholds, hblank⟩ := storeHanded_holds hgeo hlengths hstart hempty
      (fun y hy => hlt y (List.mem_cons_of_mem _ hy))
      fun y hy => hpieces y (List.mem_cons_of_mem _ hy)
    rw [storeHanded, hpieces x List.mem_cons_self, List.map_cons]
    exact ⟨hholds.write hgeo.layout hlengths (hlt x List.mem_cons_self),
      blank_storageWrite hholds.pieceLength hblank _ _⟩

/-- The pieces of a payload in files that were just opened. -/
theorem storageOpen_handed {fs : Fs} {cfg : Config} {calls : List FsCall}
    (hgeo : Geometric tor payload) (hopen : storageOpen fs cfg tor = (.opened st, calls))
    (hreliable : ∀ fi ∈ st.files, fi.fp.outcomes = []) {handed : List (UInt32 × Bytes)}
    (hlt : ∀ x ∈ handed, x.1 < tor.numPieces)
    (hpieces : ∀ x ∈ handed, x.2 = pieceOf tor payload x.1) :
    StorageHolds tor payload (handed.map Prod.fst) st.files (storeHanded tor st handed) ∧
      ∀ fi ∈ (storeHanded tor st handed).files, Blank tor (handed.map Prod.fst) fi := by
  have hstart := (storageOpen_holds hgeo.layout hopen hreliable).1
  have hsum : (tor.files.map fun f => f.length.toNat).sum < 2 ^ 64 := by
    rw [hgeo.sum_lengths]
    exact tor.totalLength.toNat_lt
  have hshort : ∀ fi ∈ st.files, fi.length.toNat ≤ 2 ^ 63 := by
    intro fi hfi
    have hin := (hstart.holds fi hfi).inside
    have hlen := hgeo.length_payload
    have hlt := hgeo.totalLength_lt
    omega
  exact storeHanded_holds hgeo hshort hstart (storageOpen_layout hopen hsum).2.2.2 hlt hpieces

/-- Read back, a file is its part of a payload that is zero wherever no piece was written. -/
theorem FileHolds.readBack_eq {done : List UInt32} {fi : FileInfo}
    (h : FileHolds payload (InPieces tor done) fi) (hblank : Blank tor done fi)
    (hzero : ∀ x, x < payload.length → ¬InPieces tor done x → payload[x]?.getD 0 = 0) :
    fi.readBack = fi.part payload := by
  have hlen := FileInfo.length_part h.inside
  have hle := h.holds.length_le
  have hsize : fi.readBack.length = (fi.part payload).length := by
    simp only [FileInfo.readBack, List.length_append, List.length_replicate]
    omega
  refine List.ext_getElem hsize fun k hk hk' => ?_
  have hpos : fi.offset.toNat + k < payload.length := by
    have := h.inside
    omega
  have hback : fi.readBack[k]?.getD 0 = fi.fp.bytes[k]?.getD 0 := by
    rw [FileInfo.readBack]
    rcases Nat.lt_or_ge k fi.fp.bytes.length with hlt | hge
    · rw [List.getElem?_append_left hlt]
    · rw [List.getElem?_append_right hge, List.getElem?_eq_none hge, List.getElem?_replicate]
      split <;> rfl
  have hsame : fi.readBack[k]?.getD 0 = (fi.part payload)[k]?.getD 0 := by
    rw [hback]
    by_cases hin : InPieces tor done (fi.offset.toNat + k)
    · rw [h.holds.agree k hin hk']
    · rw [hblank k hin, FileInfo.part, List.getElem?_take_of_lt (by omega), List.getElem?_drop,
        hzero _ hpos hin]
  rwa [List.getElem?_eq_getElem hk, List.getElem?_eq_getElem hk'] at hsame

/-- What is computed of the files apart from their bytes stays as it was. -/
theorem StorageHolds.map_eq {done : List UInt32} (h : StorageHolds tor payload done files st)
    {β : Type} {g : FileInfo → β} (hg : ∀ fi, g (fi.filled payload) = g fi) :
    st.files.map g = files.map g := by
  have heq := congrArg (List.map g) h.filled
  rw [List.map_map, List.map_map] at heq
  exact (List.map_congr_left fun fi _ => (hg fi).symm).trans
    (heq.trans (List.map_congr_left fun fi _ => hg fi))

/-- Read back, the files are the payload. -/
theorem StorageHolds.image_eq {done : List UInt32} (h : StorageHolds tor payload done files st)
    (hblank : ∀ fi ∈ st.files, Blank tor done fi)
    (hzero : ∀ x, x < payload.length → ¬InPieces tor done x → payload[x]?.getD 0 = 0)
    (hparts : (files.map (·.part payload)).flatten = payload) : st.image = payload :=
  calc st.image
      = (st.files.map (·.part payload)).flatten := by
        rw [Storage.image, List.flatMap]
        exact congrArg List.flatten (List.map_congr_left fun fi hfi =>
          (h.holds fi hfi).readBack_eq (hblank fi hfi) hzero)
    _ = (files.map (·.part payload)).flatten := by rw [h.map_eq fun _ => rfl]
    _ = payload := hparts

/-- A payload is zero where its pieces are. -/
theorem Layout.zero_of_pieces {done : List UInt32} (hgeo : Layout tor payload)
    (h : ∀ i, i < tor.numPieces → i ∉ done →
      pieceOf tor payload i = List.replicate (pieceSize tor i).toNat 0) :
    ∀ x, x < payload.length → ¬InPieces tor done x → payload[x]?.getD 0 = 0 := by
  intro x hx hout
  obtain ⟨i, hi, h1, h2⟩ := hgeo.exists_piece hx
  have hpiece := h i hi fun hmem => hout ⟨i, hmem, h1, h2⟩
  have hsame : payload[x]? = (pieceOf tor payload i)[x - pieceStart tor i]? := by
    rw [pieceOf, List.getElem?_take_of_lt (by omega), List.getElem?_drop, ← pieceStart,
      Nat.add_sub_cancel' h1]
  rw [hsame, hpiece, List.getElem?_replicate]
  split <;> rfl

end Image

/-! ## Runs -/

/-- What a run leaves in files that `storage_open` has opened, that differ by their paths and on
which no call fails: whatever the peers and the network do, and however the run ends. -/
theorem storage_download_ok (sha1 : Bytes → Bytes) (tor : TorrentT) (peers : List PeerT)
    (myPeerId : Bytes) (env : Surroundings) (fs : Fs) (cfg : Config) (st : Storage)
    (calls : List FsCall) (htiled : Tiled tor) (htor : Downloadable tor)
    (hopen : storageOpen fs cfg tor = (.opened st, calls))
    (hdistinct : (st.files.map (·.fullPath)).Nodup)
    (hreliable : ∀ fi ∈ st.files, fi.fp.outcomes = []) (disk : Disk) :
    ∃ st', st'.files.map (fun fi => (fi.fullPath, fi.offset, fi.length)) =
        st.files.map (fun fi => (fi.fullPath, fi.offset, fi.length)) ∧
      Stored sha1 tor (run sha1 tor peers myPeerId env (.storage st)) st' ∧
      OnDisk disk st' ((disk.create st.files).handed tor st
        (handedPieces (run sha1 tor peers myPeerId env (.storage st)).2.log)) := by
  obtain ⟨hlog, hcounted⟩ := run_counted sha1 htor peers myPeerId env (.storage st)
  have hstores := run_stores sha1 tor peers myPeerId env st
  generalize run sha1 tor peers myPeerId env (.storage st) = r at *
  have hnodup := hlog.nodup
  rw [← map_fst_handedPieces] at hnodup
  obtain ⟨payload, hgeo, hpieces, hzeros⟩ :=
    exists_partial_payload htiled htor hnodup hstores.lt hstores.length
  obtain ⟨hstart, hlengths, hparts⟩ := storageOpen_holds hgeo.layout hopen hreliable
  have hempty := (storageOpen_layout hopen (htiled.sum_lengths ▸ tor.totalLength.toNat_lt)).2.2.2
  obtain ⟨hholds, hblank⟩ := storageOpen_handed hgeo hopen hreliable hstores.lt hpieces
  have himage := hholds.image_eq hblank (hgeo.layout.zero_of_pieces hzeros) hparts
  rw [map_fst_handedPieces] at hzeros hholds
  refine ⟨_, hholds.map_eq fun _ => rfl, ⟨hstores.out, fun fi hfi => ?_, fun i hi => ?_,
    fun i hi hnew => ?_, fun left hleft => (hcounted left hleft).2.done, fun hzero => ?_⟩,
    (onDisk_create disk hempty).handed hdistinct (handedPieces r.2.log)⟩
  · have hfile := hholds.holds fi hfi
    exact FileInfo.length_part hfile.inside ▸ hfile.holds.length_le
  · rw [← map_fst_handedPieces] at hi
    obtain ⟨⟨j, buf⟩, hx, rfl⟩ := List.mem_map.mp hi
    have hver := hlog.verified j buf (mem_handedPieces hx)
    rw [Verified, ← hstores.length _ hx, List.take_length, hpieces _ hx] at hver
    rw [himage]
    exact hver
  · rw [himage]
    exact hzeros i hi hnew
  · obtain ⟨hleft, hcount⟩ := hcounted 0 hzero
    have hall := hcount.left_eq_zero_iff.mp hleft.symm
    have hmem : ∀ i, i < tor.numPieces → i ∈ handedIndices r.2.log := fun i hi =>
      List.count_pos_iff.mp (by rw [hall i hi]; exact Nat.one_pos)
    refine ⟨hmem, fun fi hfi => ?_⟩
    rw [hholds.files_eq hgeo.layout hmem] at hfi
    obtain ⟨f, hf, rfl⟩ := List.mem_map.mp hfi
    exact FileInfo.length_part (hstart.holds f hf).inside

/-- The second file is there already, with other contents. -/
def oldDisk : Disk := fun path => if path = ascii "out/b" then some (ascii "old") else none

/-- A run with a peer that has only the second byte. -/
def secondByteRun : Except Stop Int × World :=
  run Sha1.sha1 twoFileTorrent [⟨0, 0⟩] [] ⟨none, [some secondBytePeer], fun _ _ => 0⟩
    (.storage twoFileStorage)

/-- The first file stays empty, the second one gets its byte. -/
theorem storage_download_ok_second : secondByteRun.1 = .ok 1 ∧
    ∃ st', st'.files.map (fun fi => (fi.fullPath, fi.offset, fi.length)) =
        twoFileStorage.files.map (fun fi => (fi.fullPath, fi.offset, fi.length)) ∧
      Stored Sha1.sha1 twoFileTorrent secondByteRun st' ∧
      OnDisk oldDisk st' ((oldDisk.create twoFileStorage.files).handed twoFileTorrent
        twoFileStorage (handedPieces secondByteRun.2.log)) := by
  refine ⟨by decide +kernel, ?_⟩
  unfold secondByteRun
  exact storage_download_ok Sha1.sha1 twoFileTorrent [⟨0, 0⟩] [] _ .reliable
    ⟨none, some (ascii "out")⟩ twoFileStorage [.mkdir (ascii "out"), .fopen (ascii "out/a"),
      .mkdir (ascii "out"), .fopen (ascii "out/b")] ⟨by decide, by decide⟩ ⟨by decide, by decide⟩
    (by decide +kernel) (by decide +kernel) (by decide +kernel) oldDisk

end CourseWork.Torrent
