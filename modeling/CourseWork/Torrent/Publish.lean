import CourseWork.Torrent.OutputPaths
import CourseWork.Torrent.StorageDownload

/-!
# Published torrents

The torrent file of a publication, in both layouts, and what `torrent_load_from_memory` makes
of it.
-/

namespace CourseWork.Torrent
open CLib Bencode Tiling

/-! ## Publications -/

/-- A file that is published under a path. -/
structure PublishedFile where
  path : List Bytes
  content : Bytes

/-- The two layouts of an info dictionary. -/
inductive Contents
  | single (content : Bytes)
  | multi (files : List PublishedFile)

/-- What is published. -/
structure Publication where
  announce : Bytes
  comment : Option Bytes
  creationDate : Option Int64
  createdBy : Option Bytes
  name : Bytes
  pieceLength : Nat
  contents : Contents

namespace Publication

/-- The files; a single one has the name of the publication. -/
def files (pub : Publication) : List PublishedFile :=
  match pub.contents with
  | .single content => [⟨[pub.name], content⟩]
  | .multi files => files

/-- The contents one behind the other. -/
def payload (pub : Publication) : Bytes := pub.files.flatMap (·.content)

/-- How many pieces the payload has. -/
def numPieces (pub : Publication) : Nat :=
  (pub.payload.length + pub.pieceLength - 1) / pub.pieceLength

/-- A piece of the payload. -/
def piece (pub : Publication) (k : Nat) : Bytes :=
  (pub.payload.drop (k * pub.pieceLength)).take pub.pieceLength

/-- The hashes of the pieces. -/
def hashes (sha1 : Bytes → Bytes) (pub : Publication) : Bytes :=
  (List.range pub.numPieces).flatMap fun k => sha1 (pub.piece k)

/-- The strings that the client keeps as C strings. -/
def texts (pub : Publication) : List Bytes :=
  pub.announce :: pub.name :: (pub.comment.toList ++ pub.createdBy.toList ++
    pub.files.flatMap (·.path))

/-- There are pieces, their hashes have 32-bit offsets, and no string has a NUL. -/
structure Valid (pub : Publication) : Prop where
  pieceLength_pos : 0 < pub.pieceLength
  pieceLength_lt : pub.pieceLength < 2 ^ 32
  hashes_lt : 20 * pub.numPieces < 2 ^ 32
  texts : ∀ s ∈ pub.texts, 0 ∉ s

end Publication

/-! ## The torrent file -/

/-- The components of a path. -/
def pathItems : List Bytes → Items
  | [] => .nil
  | s :: path => .cons (.str s) (pathItems path)

/-- The `files` list. -/
def fileItems : List PublishedFile → Items
  | [] => .nil
  | f :: files =>
    .cons (.dict (.cons (ascii "length") (.int (Int64.ofNat f.content.length))
      (.cons (ascii "path") (.list (pathItems f.path)) .nil))) (fileItems files)

namespace Publication

/-- The key of the contents in the info dictionary, with its value. -/
def contentsPair (pub : Publication) : Bytes × Ben :=
  match pub.contents with
  | .single content => (ascii "length", .int (Int64.ofNat content.length))
  | .multi files => (ascii "files", .list (fileItems files))

/-- The info dictionary. -/
def info (sha1 : Bytes → Bytes) (pub : Publication) : Ben :=
  .dict (.cons pub.contentsPair.1 pub.contentsPair.2
    (.cons (ascii "name") (.str pub.name)
    (.cons (ascii "piece length") (.int (Int64.ofNat pub.pieceLength))
    (.cons (ascii "pieces") (.str (pub.hashes sha1)) .nil))))

/-- A pair that may be missing. -/
def optional (key : String) (value : Option Ben) (pairs : Pairs) : Pairs :=
  match value with
  | some value => .cons (ascii key) value pairs
  | none => pairs

/-- The dictionary of the torrent file. -/
def root (sha1 : Bytes → Bytes) (pub : Publication) : Ben :=
  .dict (.cons (ascii "announce") (.str pub.announce)
    (optional "comment" (pub.comment.map .str)
    (optional "created by" (pub.createdBy.map .str)
    (optional "creation date" (pub.creationDate.map .int)
    (.cons (ascii "info") (pub.info sha1) .nil)))))

/-- The torrent file. -/
def metainfo (sha1 : Bytes → Bytes) (pub : Publication) : Bytes := bencodeEncode (pub.root sha1)

/-- What it says, as the client keeps it. -/
def torrent (sha1 : Bytes → Bytes) (pub : Publication) : TorrentT where
  announce := some pub.announce
  comment := pub.comment
  creationDate := pub.creationDate.getD 0
  createdBy := pub.createdBy
  infoHash := sha1 (bencodeEncode (pub.info sha1))
  name := some pub.name
  pieceLength := UInt32.ofNat pub.pieceLength
  numPieces := UInt32.ofNat pub.numPieces
  pieces := pub.hashes sha1
  files := pub.files.map fun f => ⟨f.path, UInt64.ofNat f.content.length⟩
  totalLength := UInt64.ofNat pub.payload.length

end Publication

/-! ## Loading -/

section Loading

variable {sha1 : Bytes → Bytes} {pub : Publication}

theorem cstr_eq_self {s : Bytes} (h : 0 ∉ s) : cstr s = s := by
  rw [cstr, List.takeWhile_eq_self_iff]
  intro c hc
  exact bne_iff_ne.mpr fun hnul => h (hnul ▸ hc)

theorem pathComponents_pathItems : ∀ {path : List Bytes}, (∀ s ∈ path, 0 ∉ s) →
    pathComponents (pathItems path) = some path
  | [], _ => rfl
  | s :: path, h => by
    obtain ⟨hs, hpath⟩ := List.forall_mem_cons.mp h
    rw [pathItems, pathComponents, pathComponents_pathItems hpath, strFromBencode, cstr_eq_self hs]
    rfl

/-- The loop over the files reads them back and adds up their lengths. -/
theorem loadFiles_fileItems : ∀ {files : List PublishedFile} (total : UInt64),
    (∀ f ∈ files, ∀ s ∈ f.path, 0 ∉ s) →
    loadFiles total (fileItems files) =
      some (files.map (fun f => ⟨f.path, UInt64.ofNat f.content.length⟩),
        total + UInt64.ofNat (files.flatMap (·.content)).length)
  | [], total, _ => by
    rw [fileItems, loadFiles]
    exact congrArg (fun n => some ([], n)) (UInt64.add_zero total).symm
  | f :: files, total, h => by
    obtain ⟨hf, hfiles⟩ := List.forall_mem_cons.mp h
    have hlength : intField (.dict (.cons (ascii "length") (.int (Int64.ofNat f.content.length))
        (.cons (ascii "path") (.list (pathItems f.path)) .nil))) "length" =
          some (Int64.ofNat f.content.length) := rfl
    have hpath : bencodeDictGet (.dict (.cons (ascii "length")
        (.int (Int64.ofNat f.content.length))
        (.cons (ascii "path") (.list (pathItems f.path)) .nil))) (ascii "path") =
          some (.list (pathItems f.path)) := rfl
    rw [fileItems, loadFiles, hlength, hpath]
    simp only [Option.bind_eq_bind, Option.bind_some, parsePathList, pathComponents_pathItems hf,
      loadFiles_fileItems _ hfiles]
    rw [List.map_cons, List.flatMap_cons, List.length_append, UInt64.ofNat_add,
      ← UInt64.add_assoc]
    rfl

theorem Publication.Valid.path (h : pub.Valid) : ∀ f ∈ pub.files, ∀ s ∈ f.path, 0 ∉ s :=
  fun f hf s hs => h.texts s (List.mem_cons_of_mem _ (List.mem_cons_of_mem _
    (List.mem_append_right _ (List.mem_flatMap.mpr ⟨f, hf, hs⟩))))

/-- Both layouts are read back. -/
theorem loadLayout_info (h : pub.Valid) :
    loadLayout (pub.info sha1) (some pub.name) =
      some ((pub.torrent sha1).files, (pub.torrent sha1).totalLength) := by
  have hpath := h.path
  obtain ⟨announce, comment, creationDate, createdBy, name, pieceLength, contents⟩ := pub
  cases contents with
  | single content =>
    show some (([⟨[name], UInt64.ofNat content.length⟩], UInt64.ofNat content.length) :
      List FileT × UInt64) = some ([⟨[name], UInt64.ofNat content.length⟩],
        UInt64.ofNat ([(⟨[name], content⟩ : PublishedFile)].flatMap (·.content)).length)
    rw [List.flatMap_singleton]
  | multi files =>
    refine (loadFiles_fileItems 0 hpath).trans ?_
    rw [UInt64.zero_add]
    rfl

/-- What is behind the contents in the info dictionary. -/
theorem info_get (sha1 : Bytes → Bytes) (pub : Publication) :
    bencodeDictGet (pub.info sha1) (ascii "name") = some (.str pub.name) ∧
      bencodeDictGet (pub.info sha1) (ascii "piece length") =
        some (.int (Int64.ofNat pub.pieceLength)) ∧
      bencodeDictGet (pub.info sha1) (ascii "pieces") = some (.str (pub.hashes sha1)) := by
  obtain ⟨announce, comment, creationDate, createdBy, name, pieceLength, contents⟩ := pub
  cases contents with
  | single content => exact ⟨rfl, rfl, rfl⟩
  | multi files => exact ⟨rfl, rfl, rfl⟩

/-- What is in the dictionary of the torrent file. -/
theorem root_get (sha1 : Bytes → Bytes) (pub : Publication) :
    bencodeDictGet (pub.root sha1) (ascii "announce") = some (.str pub.announce) ∧
      bencodeDictGet (pub.root sha1) (ascii "comment") = pub.comment.map .str ∧
      bencodeDictGet (pub.root sha1) (ascii "created by") = pub.createdBy.map .str ∧
      bencodeDictGet (pub.root sha1) (ascii "creation date") = pub.creationDate.map .int ∧
      bencodeDictGet (pub.root sha1) (ascii "info") = some (pub.info sha1) := by
  obtain ⟨announce, comment, creationDate, createdBy, name, pieceLength, contents⟩ := pub
  cases comment with
  | none =>
    cases createdBy with
    | none =>
      cases creationDate with
      | none => exact ⟨rfl, rfl, rfl, rfl, rfl⟩
      | some date => exact ⟨rfl, rfl, rfl, rfl, rfl⟩
    | some creator =>
      cases creationDate with
      | none => exact ⟨rfl, rfl, rfl, rfl, rfl⟩
      | some date => exact ⟨rfl, rfl, rfl, rfl, rfl⟩
  | some text =>
    cases createdBy with
    | none =>
      cases creationDate with
      | none => exact ⟨rfl, rfl, rfl, rfl, rfl⟩
      | some date => exact ⟨rfl, rfl, rfl, rfl, rfl⟩
    | some creator =>
      cases creationDate with
      | none => exact ⟨rfl, rfl, rfl, rfl, rfl⟩
      | some date => exact ⟨rfl, rfl, rfl, rfl, rfl⟩

/-- The hashes have 20 bytes each. -/
theorem length_hashes (hsha1 : ∀ x, (sha1 x).length = 20) (pub : Publication) :
    (pub.hashes sha1).length = 20 * pub.numPieces := by
  rw [Publication.hashes, List.length_flatMap]
  simp only [hsha1, List.map_const', List.length_range, List.sum_replicate_nat]
  exact Nat.mul_comm _ _

/-- A string without NUL, if there is one, is kept as it is. -/
theorem optional_text {text : Option Bytes} (h : ∀ s ∈ text, 0 ∉ s) :
    (text.map Ben.str).bind strFromBencode = text := by
  cases text with
  | none => rfl
  | some s => exact congrArg some (cstr_eq_self (h s rfl))

/-- What is published is what is loaded. -/
theorem load_metainfo (hsha1 : ∀ x, (sha1 x).length = 20) (h : pub.Valid)
    (hfits : (pub.metainfo sha1).length < 2 ^ 63) :
    torrentLoadFromMemory sha1 (pub.metainfo sha1) = .ok (some (pub.torrent sha1)) := by
  obtain ⟨hname, hlength, hpieces⟩ := info_get sha1 pub
  obtain ⟨hannounce, hcomment, hcreator, hdate, hinfo⟩ := root_get sha1 pub
  have htexts := h.texts
  simp only [Publication.texts, List.forall_mem_cons, List.mem_append] at htexts
  obtain ⟨hann, hnam, htexts⟩ := htexts
  have hcom : ∀ s ∈ pub.comment, 0 ∉ s := fun s hs =>
    htexts s (.inl (.inl (Option.mem_toList.mpr hs)))
  have hcre : ∀ s ∈ pub.createdBy, 0 ∉ s := fun s hs =>
    htexts s (.inl (.inr (Option.mem_toList.mpr hs)))
  have hdict : infoDict (pub.root sha1) = some (pub.info sha1) := by
    rw [infoDict, hinfo]
    rfl
  have hload : loadPieces (pub.info sha1) = some (pub.hashes sha1) := by
    rw [loadPieces, strField, hpieces]
    refine if_neg (not_not_intro ?_)
    rw [length_hashes hsha1, Nat.mul_mod_right]
  have hpl : loadPieceLength (pub.info sha1) = UInt32.ofNat pub.pieceLength := by
    have hcast : (Int64.ofNat pub.pieceLength).toUInt64 = UInt64.ofNat pub.pieceLength := rfl
    rw [loadPieceLength, intField, hlength]
    dsimp only
    rw [hcast, UInt64.toUInt32_ofNat']
  have hcreation : intField (pub.root sha1) "creation date" = pub.creationDate := by
    rw [intField, hdate]
    cases pub.creationDate with
    | none => rfl
    | some date => rfl
  have hnum : (pub.hashes sha1).length / 20 = pub.numPieces := by
    rw [length_hashes hsha1, Nat.mul_div_cancel_left _ (by decide)]
  have hstr : ∀ {s : Bytes}, 0 ∉ s → (some (Ben.str s)).bind strFromBencode = some s :=
    fun hs => congrArg some (cstr_eq_self hs)
  rw [Publication.metainfo, torrentLoadFromMemory_encode _ hfits, hdict, Option.bind_some,
    loadInfo, hname, hload, hannounce, hcomment, hcreator, hpl, hcreation, optional_text hcom,
    optional_text hcre, hstr hann, hstr hnam, loadLayout_info h]
  simp only [Option.bind_eq_bind, Option.bind_some, hnum]
  rfl

end Loading

/-! ## Geometry -/

section Geometry

variable {sha1 : Bytes → Bytes} {pub : Publication}

namespace Publication.Valid

theorem length_payload_lt (h : pub.Valid) : pub.payload.length < 2 ^ 63 := by
  have hhashes := h.hashes_lt
  calc pub.payload.length
      ≤ pub.numPieces * pub.pieceLength := ((eq_ceil_iff h.pieceLength_pos).mp rfl).1
    _ ≤ 2 ^ 30 * 2 ^ 32 := Nat.mul_le_mul (by omega) (Nat.le_of_lt h.pieceLength_lt)
    _ < 2 ^ 63 := by decide

theorem toNat_pieceLength (h : pub.Valid) :
    (pub.torrent sha1).pieceLength.toNat = pub.pieceLength :=
  UInt32.toNat_ofNat_of_lt' h.pieceLength_lt

theorem toNat_numPieces (h : pub.Valid) : (pub.torrent sha1).numPieces.toNat = pub.numPieces :=
  UInt32.toNat_ofNat_of_lt' (Nat.lt_of_le_of_lt (Nat.le_mul_of_pos_left _ (by decide)) h.hashes_lt)

theorem toNat_totalLength (h : pub.Valid) :
    (pub.torrent sha1).totalLength.toNat = pub.payload.length :=
  UInt64.toNat_ofNat_of_lt' (Nat.lt_trans h.length_payload_lt (by decide))

theorem length_content_le {f : PublishedFile} (hf : f ∈ pub.files) :
    f.content.length ≤ pub.payload.length := by
  rw [Publication.payload, List.length_flatMap]
  exact List.le_sum_of_mem (List.mem_map_of_mem hf)

/-- The lengths in the torrent are those of the contents. -/
theorem map_length (h : pub.Valid) :
    (pub.torrent sha1).files.map (fun f => f.length.toNat) =
      pub.files.map fun f => f.content.length := by
  show (pub.files.map _).map _ = _
  rw [List.map_map]
  refine List.map_congr_left fun f hf => UInt64.toNat_ofNat_of_lt' ?_
  have hle := length_content_le hf
  have hlt := h.length_payload_lt
  show f.content.length < 2 ^ 64
  omega

theorem geometric (h : pub.Valid) : Geometric (pub.torrent sha1) pub.payload where
  pieceLength_pos := by
    rw [h.toNat_pieceLength]
    exact h.pieceLength_pos
  length_payload := h.toNat_totalLength.symm
  totalLength_lt := by
    rw [h.toNat_totalLength]
    exact h.length_payload_lt
  sum_lengths := by
    rw [h.map_length, h.toNat_totalLength, Publication.payload, List.length_flatMap]
  numPieces_eq := by
    rw [h.toNat_numPieces, h.toNat_totalLength, h.toNat_pieceLength]
    rfl

theorem downloadable (h : pub.Valid) : Downloadable (pub.torrent sha1) where
  pieceLength_pos := by
    rw [UInt32.lt_iff_toNat_lt, h.toNat_pieceLength]
    exact h.pieceLength_pos
  hashes_lt := by
    rw [h.toNat_numPieces]
    exact h.hashes_lt

/-- A piece of the torrent is a piece of the publication. -/
theorem pieceOf_eq (h : pub.Valid) {i : UInt32} (hi : i < (pub.torrent sha1).numPieces) :
    pieceOf (pub.torrent sha1) pub.payload i = pub.piece i.toNat := by
  have hgeo : Geometric (pub.torrent sha1) pub.payload := h.geometric
  have hi' := UInt32.lt_iff_toNat_lt.mp hi
  have hsize := toNat_pieceSize hgeo.pieceLength_pos hi
  have hle := blockSize_le h.pieceLength_pos pub.numPieces pub.payload.length i.toNat
  rw [TorrentT.sizeOf, h.toNat_numPieces, h.toNat_pieceLength, h.toNat_totalLength] at hsize
  rw [h.toNat_numPieces] at hi'
  rw [pieceOf, h.toNat_pieceLength, hsize, Publication.piece, List.take_eq_take_iff,
    List.length_drop]
  have htiles := (tiles_blocks_iff h.pieceLength_pos).mpr (show pub.numPieces = _ from rfl)
  rcases Nat.lt_or_ge (i.toNat + 1) pub.numPieces with hlt | hge
  · rw [Tiling.blockSize, if_pos hlt]
  · have hlast := htiles.last i.toNat (by omega)
    omega

end Publication.Valid

/-- The hash of a piece is in its place. -/
theorem Publication.hash_piece (hsha1 : ∀ x, (sha1 x).length = 20) {k : Nat}
    (hk : k < pub.numPieces) :
    ((pub.hashes sha1).drop (20 * k)).take 20 = sha1 (pub.piece k) := by
  have htiles : Tiles (20 * ·) (fun _ => 20) pub.numPieces (20 * pub.numPieces) :=
    ⟨fun h => by rw [h], fun _ => rfl, fun i _ => (Nat.mul_succ 20 i).symm,
      fun i hi => by rw [← hi]; exact (Nat.mul_succ 20 i).symm⟩
  exact (htiles.slice_flatMap fun i _ => hsha1 (pub.piece i)).2 k hk

end Geometry

/-! ## The files on disk -/

/-- The bytes of the file with this path. -/
def Storage.onDisk (st : Storage) (path : Bytes) : Option Bytes :=
  (st.files.find? fun fi => fi.fullPath = path).map (·.fp.bytes)

/-- A path of which every component names something else than a directory it is in. -/
def PlainPath (path : List Bytes) : Prop :=
  path ≠ [] ∧ ∀ s ∈ path, s ≠ [] ∧ 47 ∉ s ∧ s ≠ [46] ∧ s ≠ dotDot

/-- The files have different places in the directory. -/
structure Publication.Storable (pub : Publication) (dir : Bytes) : Prop where
  plain : ∀ f ∈ pub.files, PlainPath f.path
  distinct : (pub.files.map (·.path)).Nodup
  fits : ∀ f ∈ pub.files, dir.length + 1 + (joinPath f.path).length < pathLen

/-- Where a file is in the directory. -/
def PublishedFile.place (dir : Bytes) (f : PublishedFile) : Bytes := dir ++ 47 :: joinPath f.path

/-- A peer has found other bytes with the hash of a piece. -/
def Forged (sha1 : Bytes → Bytes) (pub : Publication) (log : List Event) : Prop :=
  ∃ i data, .handed i data ∈ log ∧ data ≠ pub.piece i.toNat ∧
    data.length = (pub.piece i.toNat).length ∧ sha1 data = sha1 (pub.piece i.toNat)

/-- Every file is on disk as it was published. -/
def Delivered (pub : Publication) (dir : Bytes) (st : Storage) : Prop :=
  ∀ f ∈ pub.files, st.onDisk (f.place dir) = some f.content

/-- Every file is on disk, as far as it is there: with the bytes that were published, and zeros
in its holes. -/
def PartlyDelivered (pub : Publication) (dir : Bytes) (st : Storage) : Prop :=
  ∀ f ∈ pub.files, ∃ bytes, st.onDisk (f.place dir) = some bytes ∧
    bytes.length ≤ f.content.length ∧
    ∀ (k : Nat) (b : UInt8), bytes[k]? = some b → b = 0 ∨ f.content[k]? = some b

section Paths

/-- Plain paths with the same text are the same. -/
theorem joinPath_inj {p q : List Bytes} (hp : PlainPath p) (hq : PlainPath q)
    (h : joinPath p = joinPath q) : p = q := by
  have hsplit : ∀ {path : List Bytes}, PlainPath path → (joinPath path).splitOn 47 = path :=
    fun hpath => List.splitOn_intercalate 47 (fun s hs => (hpath.2 s hs).2.1) hpath.1
  rw [← hsplit hp, h, hsplit hq]

theorem Publication.Storable.nodup_place {pub : Publication} {dir : Bytes}
    (h : pub.Storable dir) : (pub.files.map (·.place dir)).Nodup := by
  refine List.Nodup.map_on (fun f hf g hg heq => ?_) (List.Nodup.of_map _ h.distinct)
  have hjoin := (List.cons_eq_cons.mp (List.append_cancel_left heq)).2
  exact List.inj_on_of_nodup_map h.distinct hf hg
    (joinPath_inj (h.plain f hf) (h.plain g hg) hjoin)

/-- The loop of `storage_open` gives every file its path. -/
theorem openFiles_fullPath {fs : Fs} {dir : Option Bytes} : ∀ {tfs : List FileT}
    {calls calls' : List FsCall} {o : UInt64} {files : List FileInfo},
    openFiles fs dir calls o tfs = (.opened files, calls') →
    files.map (·.fullPath) = tfs.map fun f => fullPath dir f.path
  | [], _, _, _, _, h => by
    cases h
    rfl
  | tf :: tfs, calls, calls', o, files, h => by
    rw [openFiles] at h
    split at h
    · cases h
    · cases h
    · dsimp only at h
      split at h
      · cases h
      · split at h
        · next files' calls2 hrest =>
          cases h
          rw [List.map_cons, List.map_cons, openFiles_fullPath hrest]
        · cases h
        · cases h

theorem storageOpen_fullPath {fs : Fs} {cfg : Config} {tor : TorrentT} {st : Storage}
    {calls : List FsCall} (h : storageOpen fs cfg tor = (.opened st, calls)) :
    st.files.map (·.fullPath) = tor.files.map fun f => fullPath cfg.extractDir f.path := by
  unfold storageOpen at h
  split at h
  · cases h
  · split at h
    · next files calls' hopen =>
      cases h
      exact openFiles_fullPath hopen
    · cases h
    · cases h

/-- What is found under a key that only one element has. -/
theorem find?_of_map {α β κ δ : Type} [DecidableEq κ] {l : List α} {m : List β} {g : α → κ × δ}
    {h : β → κ × δ} (heq : l.map g = m.map h) (hnodup : (m.map fun x => (h x).1).Nodup) {x : β}
    (hx : x ∈ m) : ∃ y ∈ l, l.find? (fun y => (g y).1 = (h x).1) = some y ∧ g y = h x := by
  obtain ⟨y, hy, hyx⟩ := List.mem_map.mp (heq ▸ List.mem_map_of_mem hx : h x ∈ l.map g)
  have hsome : (l.find? fun y => (g y).1 = (h x).1).isSome :=
    List.find?_isSome.mpr ⟨y, hy, decide_eq_true (congrArg Prod.fst hyx)⟩
  obtain ⟨z, hz⟩ := Option.isSome_iff_exists.mp hsome
  have hmem := List.mem_of_find?_eq_some hz
  have hkey : (g z).1 = (h x).1 := by simpa using List.find?_some hz
  obtain ⟨x', hx', hzx⟩ := List.mem_map.mp (heq ▸ List.mem_map_of_mem hmem : g z ∈ m.map h)
  obtain rfl := List.inj_on_of_nodup_map hnodup hx' hx ((congrArg Prod.fst hzx).trans hkey)
  exact ⟨z, hmem, hz, hzx.symm⟩

end Paths

section Disk

variable {sha1 : Bytes → Bytes} {pub : Publication} {dir : Bytes} {st : Storage}

/-- The files that are opened for a publication: their places, and the parts of the payload that
belong into them. -/
theorem storageOpen_published (hpub : pub.Valid) (hstore : pub.Storable dir) {fs : Fs}
    {cfg : Config} {calls : List FsCall} (hdir : cfg.extractDir = some dir)
    (hopen : storageOpen fs cfg (pub.torrent sha1) = (.opened st, calls))
    (hreliable : ∀ fi ∈ st.files, fi.fp.outcomes = []) :
    st.files.map (fun fi => (fi.fullPath, fi.part pub.payload)) =
      pub.files.map fun f => (f.place dir, f.content) := by
  have hgeo : Geometric (pub.torrent sha1) pub.payload := hpub.geometric
  obtain ⟨hholds, hlengths, hparts⟩ := storageOpen_holds hgeo.layout hopen hreliable
  have hpaths : st.files.map (·.fullPath) = pub.files.map (·.place dir) := by
    rw [storageOpen_fullPath hopen, hdir]
    show (pub.files.map _).map _ = _
    rw [List.map_map]
    exact List.map_congr_left fun f hf => (fullPath_some_iff dir f.path).mpr (hstore.fits f hf)
  have hcontents : st.files.map (·.part pub.payload) = pub.files.map (·.content) := by
    refine List.eq_iff_flatten_eq.mpr ⟨hparts, ?_⟩
    rw [List.map_map, List.map_map]
    refine Eq.trans (List.map_congr_left fun fi hfi => ?_) (hlengths.trans hpub.map_length)
    exact FileInfo.length_part (hholds.holds fi hfi).inside
  rw [← List.zip_map', ← List.zip_map', hpaths, hcontents]

theorem Layout.length_pieceOf {tor : TorrentT} {payload : Bytes} (h : Layout tor payload)
    {i : UInt32} (hi : i < tor.numPieces) :
    (pieceOf tor payload i).length = (pieceSize tor i).toNat := by
  have hend := h.tiles.end_le_total (UInt32.lt_iff_toNat_lt.mp hi)
  rw [← toNat_pieceSize h.pieceLength_pos hi] at hend
  rw [pieceOf, List.length_take, List.length_drop]
  omega

/-- A piece that was handed over is the published one, if it is not forged. -/
theorem handed_eq (hsha1 : ∀ x, (sha1 x).length = 20) (hpub : pub.Valid) {log : List Event}
    (hforged : ¬Forged sha1 pub log) (hlog : LogOk sha1 (pub.torrent sha1) log)
    {x : UInt32 × Bytes} (hx : x ∈ handedPieces log) (hlt : x.1 < (pub.torrent sha1).numPieces)
    (hlength : x.2.length = (pieceSize (pub.torrent sha1) x.1).toNat) :
    x.2 = pieceOf (pub.torrent sha1) pub.payload x.1 := by
  have hgeo : Geometric (pub.torrent sha1) pub.payload := hpub.geometric
  have hk : x.1.toNat < pub.numPieces := by
    have hn : (pub.torrent sha1).numPieces.toNat = pub.numPieces := hpub.toNat_numPieces
    rw [← hn]
    exact UInt32.lt_iff_toNat_lt.mp hlt
  have hpiece := hpub.pieceOf_eq hlt
  have hsize := hgeo.layout.length_pieceOf hlt
  have hver := hlog.verified x.1 x.2 (mem_handedPieces hx)
  rw [Verified, ← hlength, List.take_length] at hver
  by_contra hne
  refine hforged ⟨x.1, x.2, mem_handedPieces hx, ?_, ?_, ?_⟩
  · rwa [← hpiece]
  · rw [hlength, ← hpiece, hsize]
  · rw [hver]
    exact Publication.hash_piece hsha1 hk

/-- What a run leaves in the files of a publication. -/
theorem run_published (hsha1 : ∀ x, (sha1 x).length = 20) (hpub : pub.Valid)
    (hstore : pub.Storable dir) {fs : Fs} {cfg : Config} {calls : List FsCall}
    (hdir : cfg.extractDir = some dir)
    (hopen : storageOpen fs cfg (pub.torrent sha1) = (.opened st, calls))
    (hreliable : ∀ fi ∈ st.files, fi.fp.outcomes = []) (peers : List PeerT) (myPeerId : Bytes)
    (env : Surroundings) :
    ∃ st', (run sha1 (pub.torrent sha1) peers myPeerId env (.storage st)).2.out = .storage st' ∧
      (Forged sha1 pub (run sha1 (pub.torrent sha1) peers myPeerId env (.storage st)).2.log ∨
        PartlyDelivered pub dir st' ∧
          ((run sha1 (pub.torrent sha1) peers myPeerId env (.storage st)).1 = .ok 0 →
            Delivered pub dir st')) := by
  have hgeo : Geometric (pub.torrent sha1) pub.payload := hpub.geometric
  have htor : Downloadable (pub.torrent sha1) := hpub.downloadable
  obtain ⟨hlog, hcounted⟩ := run_counted sha1 htor peers myPeerId env (.storage st)
  have hstores := run_stores sha1 (pub.torrent sha1) peers myPeerId env st
  generalize run sha1 (pub.torrent sha1) peers myPeerId env (.storage st) = r at *
  refine ⟨_, hstores.out, or_iff_not_imp_left.mpr fun hforged => ?_⟩
  have hpublished := storageOpen_published hpub hstore hdir hopen hreliable
  obtain ⟨hholds, hblank⟩ := storageOpen_handed hgeo hopen hreliable hstores.lt fun x hx =>
    handed_eq hsha1 hpub hforged hlog hx (hstores.lt x hx) (hstores.length x hx)
  -- The places and the parts are still the ones that were opened.
  have hsame := (hholds.map_eq (g := fun fi => (fi.fullPath, fi.part pub.payload))
    fun _ => rfl).trans hpublished
  have hfind := fun f (hf : f ∈ pub.files) => find?_of_map hsame hstore.nodup_place hf
  refine ⟨fun f hf => ?_, fun hzero f hf => ?_⟩
  · obtain ⟨fi, hfi, hfound, heq⟩ := hfind f hf
    have hpart : fi.part pub.payload = f.content := congrArg Prod.snd heq
    have hfile := hholds.holds fi hfi
    have hlen := FileInfo.length_part hfile.inside
    refine ⟨fi.fp.bytes, by rw [Storage.onDisk, hfound]; rfl, hpart ▸ hfile.holds.length_le, ?_⟩
    intro k b hb
    by_cases hin : InPieces (pub.torrent sha1) ((handedPieces r.2.log).map Prod.fst)
      (fi.offset.toNat + k)
    · obtain ⟨hk, _⟩ := List.getElem?_eq_some_iff.mp hb
      refine .inr ?_
      rw [← hpart, ← hb]
      exact (hfile.holds.agree k hin (Nat.lt_of_lt_of_le hk hfile.holds.length_le)).symm
    · refine .inl ?_
      have hzero := hblank fi hfi k hin
      rwa [hb] at hzero
  · obtain ⟨fi, hfi, hfound, heq⟩ := hfind f hf
    have hpart : fi.part pub.payload = f.content := congrArg Prod.snd heq
    obtain ⟨hleft, hcount⟩ := hcounted 0 hzero
    have hall := hcount.left_eq_zero_iff.mp hleft.symm
    rw [← map_fst_handedPieces] at hall
    have hmem : ∀ i, i < (pub.torrent sha1).numPieces → i ∈ (handedPieces r.2.log).map Prod.fst :=
      fun i hi => List.count_pos_iff.mp (by rw [hall i hi]; exact Nat.one_pos)
    have hfilled := hholds.files_eq hgeo.layout hmem
    rw [hfilled] at hfi
    obtain ⟨fi', _, rfl⟩ := List.mem_map.mp hfi
    rw [Storage.onDisk, hfound]
    exact congrArg some hpart

end Disk

end CourseWork.Torrent
