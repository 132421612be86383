import CourseWork.Torrent.StoragePaths
import CourseWork.Torrent.TarDownload
import CourseWork.Torrent.TarInOrder

/-!
# The two back ends

When unpacking the archive gives the same files as the storage, for pieces in the order of
their indices. Both hold the same bytes of each file; what can differ is which files there
are, their names, and whether the archive can be read.
-/

namespace CourseWork.Torrent
open CLib Ustar Tiling

/-! ## The files of the storage -/

/-- The bytes of the joined path elements that fit behind the directory. -/
def pathRoom : Option Bytes → Nat
  | some dir => pathLen - 2 - dir.length
  | none => pathLen - 1

/-- A path without the directory and the slash in front of it. -/
def stripDir : Option Bytes → Bytes → Bytes
  | some dir, path => path.drop (dir.length + 1)
  | none, path => path

theorem stripDir_fullPath (extractDir : Option Bytes) (path : List Bytes) :
    stripDir extractDir (fullPath extractDir path) = (joinPath path).take (pathRoom extractDir) := by
  cases extractDir with
  | none => exact appendPath_eq (Nat.zero_le _)
  | some dir =>
    rw [stripDir, pathRoom]
    rcases Nat.lt_or_ge dir.length (pathLen - 1) with hlt | hge
    · rw [fullPath_eq hlt, List.append_cons, List.drop_left' (by simp)]
      rfl
    · have hlen := length_fullPath_le dir path
      rw [List.drop_of_length_le (by omega), show pathLen - 2 - dir.length = 0 by omega,
        List.take_zero]

/-- The files that are left when the storage is closed, without the directory. `node` tells
which file a path names: where two handles write to one file, what is left depends on when
their buffers are flushed, and is not determined. -/
def filesLeft (node : Bytes → Nat) (extractDir : Option Bytes) (st : Storage) :
    Option (List Entry) :=
  if (st.files.map fun fi => node fi.fullPath).Nodup then
    some (st.files.map fun fi => ⟨stripDir extractDir fi.fullPath, fi.fp.bytes⟩)
  else none

/-- The entry that the storage leaves for a file. -/
def storedEntry (extractDir : Option Bytes) (payload : Bytes) (p : Placed FileT) : Entry :=
  ⟨(joinPath p.item.path).take (pathRoom extractDir), part payload p.start p.stop⟩

/-- After all pieces the storage leaves the part of every file, if no two paths name one. -/
theorem filesLeft_eq {node : Bytes → Nat} {fs : Fs} {cfg : Config} {tor : TorrentT} {st : Storage}
    {calls : List FsCall} {payload : Bytes} (hgeo : Layout tor payload)
    (hlengths : ∀ f ∈ tor.files, f.length.toNat < 2 ^ 32)
    (hopen : storageOpen fs cfg tor = (.opened st, calls))
    (hreliable : ∀ fi ∈ st.files, fi.fp.outcomes = []) :
    filesLeft node cfg.extractDir (writePieces tor payload (pieceIndices tor) st) =
      if (tor.files.map fun f => node (fullPath cfg.extractDir f.path)).Nodup then
        some (tor.placed.map (storedEntry cfg.extractDir payload))
      else none := by
  obtain ⟨hholds, hsame, _⟩ := storageOpen_holds hgeo hopen hreliable
  have hshort : ∀ fi ∈ st.files, fi.length.toNat ≤ 2 ^ 63 := by
    intro fi hfi
    have hmem : fi.length.toNat ∈ tor.files.map fun f => f.length.toNat :=
      hsame ▸ List.mem_map_of_mem hfi
    obtain ⟨f, hf, heq⟩ := List.mem_map.mp hmem
    have hlt := hlengths f hf
    omega
  have hfiles := hholds.writePieces_files hgeo hshort (.refl _)
  have hsum := hgeo.sum_lengths
  have hlt := tor.totalLength.toNat_lt
  have hplaced := storageOpen_placed hopen (by omega)
  -- Whatever is computed from these three is the same on both sides.
  have hboth : ∀ {β : Type} (g : Bytes × Nat × Nat → β),
      st.files.map (fun fi => g (fi.fullPath, fi.offset.toNat, fi.length.toNat)) =
        tor.placed.map fun p => g (fullPath cfg.extractDir p.item.path, p.start, p.size) := by
    intro β g
    have := congrArg (List.map g) hplaced
    rwa [List.map_map, List.map_map] at this
  have hnodes := hboth fun x => node x.1
  have hentries := hboth fun x =>
    (⟨stripDir cfg.extractDir x.1, (payload.drop x.2.1).take x.2.2⟩ : Entry)
  rw [filesLeft, hfiles, List.map_map, List.map_map]
  have hitems := map_item_place (fun f : FileT => f.length.toNat)
    (fun f => node (fullPath cfg.extractDir f.path)) tor.files 0 0
  rw [show st.files.map ((fun fi => node fi.fullPath) ∘ (·.filled payload)) = _ from
    hnodes.trans hitems]
  refine if_congr Iff.rfl (congrArg some ?_) rfl
  refine Eq.trans hentries (List.map_congr_left fun p _ => ?_)
  rw [storedEntry, stripDir_fullPath, part, Placed.stop, Nat.add_sub_cancel_left]

/-! ## When they agree -/

/-- Unpacking the archive gives the same set of paths and contents as the storage, for the
pieces of a payload in order. -/
def Agree (node : Bytes → Nat) (cfg : Config) (tor : TorrentT) (st : Storage) (payload : Bytes)
    (clock : List UInt64) : Prop :=
  ∃ archive es files, tarArchive tor payload clock = some archive ∧ read archive = some es ∧
    filesLeft node cfg.extractDir (writePieces tor payload (pieceIndices tor) st) = some files ∧
    ∀ e, e ∈ es ↔ e ∈ files

/-- The torrents on which they agree: no file is empty or too long for its header, and
paths that both keep, and that name different files. -/
structure Portable (node : Bytes → Nat) (extractDir : Option Bytes) (tor : TorrentT) :
    Prop where
  nonempty : ∀ f ∈ tor.files, 0 < f.length.toNat
  length_lt : ∀ f ∈ tor.files, f.length.toNat < 2 ^ 32
  fits : ∀ f ∈ tor.files, (joinPath f.path).length < pathLen
  kept : ∀ f ∈ tor.files, (joinPath f.path).take 99 = (joinPath f.path).take (pathRoom extractDir)
  distinct : (tor.files.map fun f => node (fullPath extractDir f.path)).Nodup

/-- The path elements are C strings. -/
def CStrings (tor : TorrentT) : Prop := ∀ f ∈ tor.files, ∀ s ∈ f.path, 0 ∉ s

instance (tor : TorrentT) : Decidable (CStrings tor) :=
  inferInstanceAs (Decidable (∀ f ∈ tor.files, ∀ s ∈ f.path, 0 ∉ s))

theorem zero_notMem_joinPath : ∀ (path : List Bytes), (∀ s ∈ path, 0 ∉ s) → 0 ∉ joinPath path
  | [], _ => by simp [joinPath]
  | [s], h => by simpa [joinPath] using h s List.mem_cons_self
  | s :: s' :: path, h => by
    have ih := zero_notMem_joinPath (s' :: path) fun t ht => h t (List.mem_cons_of_mem _ ht)
    rw [joinPath] at ih ⊢
    rw [List.intercalate_cons_cons]
    simp only [List.mem_append, List.mem_singleton, not_or]
    exact ⟨⟨h s List.mem_cons_self, by decide⟩, ih⟩

theorem cstr_of_notMem {s : Bytes} (h : 0 ∉ s) : cstr s = s := by
  rw [cstr, List.takeWhile_eq_self_iff]
  intro c hc
  rw [bne_iff_ne]
  rintro rfl
  exact h hc

section Agreement

variable {tor : TorrentT} {payload : Bytes} {p : Placed FileT}

theorem fileEntry_eq (hstrings : CStrings tor) (hp : p ∈ tor.placed) :
    fileEntry payload p = ⟨(joinPath p.item.path).take 99, part payload p.start p.stop⟩ := by
  rw [fileEntry, cstr_of_notMem]
  exact fun hmem => zero_notMem_joinPath _ (hstrings _ (item_mem_of_mem_place hp))
    (List.mem_of_mem_take hmem)

/-- With a header, and a size that it can hold, the part of a file is an entry. -/
theorem FileChunk.encodes {hdr chunk : Bytes} (h : FileChunk payload p hdr chunk) (hhdr : hdr ≠ [])
    (hp : p ∈ tor.placed) (hlt : p.item.length.toNat < 2 ^ 32) (hstop : p.stop ≤ payload.length) :
    Encodes chunk (fileEntry payload p) := by
  obtain ⟨n, hn, halign, rfl⟩ := h.chunk_eq
  obtain ⟨_, time, rfl⟩ := h.header.resolve_left hhdr
  rw [(sized_tarHeader _ _ _).length_bytes] at halign
  exact encodes_file hp hlt hstop time hn halign

theorem forall₂_encodes {ps : List (Placed FileT)} {parts : List (Bytes × Bytes)}
    (h : List.Forall₂ (fun p x => FileChunk payload p x.1 x.2) ps parts)
    (hps : ∀ p ∈ ps, p ∈ tor.placed ∧ p.item.length.toNat < 2 ^ 32 ∧ p.stop ≤ payload.length)
    (hparts : ∀ x ∈ parts, x.1 ≠ []) :
    List.Forall₂ Encodes (parts.map Prod.snd) (ps.map (fileEntry payload)) := by
  induction h with
  | nil => exact .nil
  | cons hchunk _ ih =>
    obtain ⟨hp, hlt, hstop⟩ := hps _ List.mem_cons_self
    exact .cons (hchunk.encodes (hparts _ List.mem_cons_self) hp hlt hstop)
      (ih (fun p hp => hps p (List.mem_cons_of_mem _ hp))
        fun x hx => hparts x (List.mem_cons_of_mem _ hx))

/-! ## Archives of a payload of ones -/

/-- A block of ones and zeros is no header, so that no archive begins with it. -/
theorem readEntries_ones {ones zeros : Nat} (hpos : 0 < ones) (h : 512 ≤ ones + zeros)
    (rest : Bytes) (n : Nat) :
    readEntries n (List.replicate ones 1 ++ (List.replicate zeros 0 ++ rest)) = none := by
  refine readEntries_of_not_isHeader (fun heq => ?_) (fun hheader => ?_) n
  · have hhead := congrArg List.head? heq
    simp [endMark, List.head?_append, List.head?_replicate, Nat.ne_of_gt hpos] at hhead
  · -- The magic is not made of them.
    rw [← List.append_assoc, List.take_append_of_le_length (by simpa using h)] at hheader
    have hmagic := hheader.magic
    have hmem : (117 : UInt8) ∈ field ((List.replicate ones (1 : UInt8) ++
        List.replicate zeros 0).take 512) 257 6 := by
      rw [hmagic]
      exact List.mem_cons_self
    have hmem' := List.mem_of_mem_take (List.mem_of_mem_drop (List.mem_of_mem_take hmem))
    rcases List.mem_append.mp hmem' with hone | hzero
    · exact absurd (List.mem_replicate.mp hone).2 (by decide)
    · exact absurd (List.mem_replicate.mp hzero).2 (by decide)

/-- The size in a header is the length of the file modulo `2 ^ 32`; if that is too small, the
reader goes on inside of the data. -/
theorem readEntries_long (hp : p ∈ tor.placed) (hlong : 2 ^ 32 ≤ p.size) (time : UInt64)
    (zeros : Nat) (rest : Bytes) (n : Nat) :
    readEntries n ((tarHeader (joinPath p.item.path) p.item.length time).bytes ++
      (List.replicate p.size 1 ++ (List.replicate zeros 0 ++ rest))) = none := by
  have hlength := (sized_tarHeader (joinPath p.item.path) p.item.length time).length_bytes
  have hread := readHeader_tarHeader_mod (joinPath p.item.path) p.item.length time
  have hround : roundUp p.item.length.toUInt32.toNat + 512 ≤ p.size := by
    have hlt := p.item.length.toUInt32.toNat_lt
    rw [UInt64.toNat_toUInt32, ← size_eq hp] at hlt ⊢
    unfold roundUp
    omega
  generalize (tarHeader (joinPath p.item.path) p.item.length time).bytes = hdr at *
  have htake : ∀ body : Bytes, (hdr ++ body).take 512 = hdr := fun body => by
    rw [← hlength, List.take_left]
  have hheader : ∀ body : Bytes, IsHeader ((hdr ++ body).take 512) := fun body => by
    rw [htake]
    exact readHeader_isHeader hread
  cases n with
  | zero => exact if_neg (ne_endMark_of_isHeader (hheader _))
  | succ n =>
    have hentry : ∃ e, readEntry (hdr ++ (List.replicate p.size 1 ++
        (List.replicate zeros 0 ++ rest))) =
          some (e, List.replicate (p.size - roundUp p.item.length.toUInt32.toNat) 1 ++
            (List.replicate zeros 0 ++ rest)) := by
      have hle : roundUp p.item.length.toUInt32.toNat ≤
          (List.replicate p.size (1 : UInt8)).length := by
        rw [List.length_replicate]
        omega
      rw [readEntry, htake, hread]
      dsimp only
      rw [← hlength, List.drop_left, List.drop_append_of_le_length hle, List.drop_replicate,
        if_pos (by rw [List.length_append]; omega)]
      exact ⟨_, rfl⟩
    obtain ⟨e, hentry⟩ := hentry
    rw [readEntries_of_readEntry (hheader _) hentry, readEntries_ones (by omega) (by omega)]
    rfl

/-- What can be read of a payload of ones are the entries of the files. -/
theorem read_chunks {total : Nat} {ps : List (Placed FileT)} {parts : List (Bytes × Bytes)}
    (h : List.Forall₂ (fun p x => FileChunk (List.replicate total 1) p x.1 x.2) ps parts)
    (hps : ∀ p ∈ ps, p ∈ tor.placed ∧ 0 < p.size ∧ p.stop ≤ total) :
    ∀ {n : Nat} {es : List Entry},
      readEntries n ((parts.map Prod.snd).flatten ++ endMark) = some es →
      (∀ p ∈ ps, p.size < 2 ^ 32 ∧ (joinPath p.item.path).length < pathLen) ∧
        es = ps.map (fileEntry (List.replicate total 1)) := by
  induction h with
  | nil =>
    intro n es hread
    have hnil := readEntries_flatten .nil n (Nat.zero_le n)
    exact ⟨fun p hp => absurd hp List.not_mem_nil, Option.some.inj (hread.symm.trans hnil)⟩
  | @cons p x ps parts hchunk _ ih =>
    intro n es hread
    obtain ⟨hp, hpos, hstop⟩ := hps p List.mem_cons_self
    have hdata : part (List.replicate total (1 : UInt8)) p.start p.stop =
        List.replicate p.size 1 := by
      have hsize : p.stop = p.start + p.size := rfl
      rw [part, List.drop_replicate, List.take_replicate]
      congr 1
      omega
    obtain ⟨hdr, chunk⟩ := x
    obtain ⟨zeros, hzeros, halign, hparts⟩ := hchunk.chunk_eq
    dsimp only at hparts halign
    rw [List.map_cons, List.flatten_cons] at hread
    rcases hchunk.header with hnil | ⟨hshort, time, hhdr⟩
    · -- Without a header the reader finds the data.
      have hblock : 512 ≤ p.size + zeros := by
        rw [show hdr = [] from hnil, List.length_nil] at halign
        omega
      rw [hparts, show hdr = [] from hnil, hdata, List.nil_append, List.append_assoc,
        List.append_assoc,
        readEntries_ones hpos hblock] at hread
      cases hread
    · rcases Nat.lt_or_ge p.size (2 ^ 32) with hlt | hlong
      · have hencodes : Encodes chunk (fileEntry (List.replicate total 1) p) :=
          hchunk.encodes (by rw [hhdr]; exact tarHeader_ne_nil _ _ _) hp
            (by rw [← size_eq hp]; exact hlt) (by rwa [List.length_replicate])
        rw [List.append_assoc] at hread
        cases n with
        | zero =>
          have hnone := hread.symm.trans (if_neg (ne_endMark_of_isHeader (hencodes.isHeader _)))
          cases hnone
        | succ n =>
          rw [readEntries_of_readEntry (hencodes.isHeader _) (hencodes.readEntry _)] at hread
          obtain ⟨es', hread', rfl⟩ := Option.map_eq_some_iff.mp hread
          obtain ⟨hrest, rfl⟩ := ih (fun q hq => hps q (List.mem_cons_of_mem _ hq)) hread'
          refine ⟨fun q hq => ?_, rfl⟩
          rcases List.mem_cons.mp hq with rfl | hq
          · exact ⟨hlt, hshort⟩
          · exact hrest q hq
      · rw [hparts, show hdr = _ from hhdr, hdata, List.append_assoc, List.append_assoc,
          List.append_assoc,
          readEntries_long hp hlong] at hread
        cases hread

/-! ## Both directions -/

variable {node : Bytes → Nat} {cfg : Config} {fs : Fs} {st : Storage} {calls : List FsCall}
  {clock : List UInt64}

theorem placed_stop_le (hgeo : Layout tor payload) (hp : p ∈ tor.placed) :
    p.stop ≤ payload.length := by
  have hsum := hgeo.sum_lengths
  have hlength := hgeo.length_payload
  have hstop := (place_bounds hp).2.2.2.1
  omega

/-- Every file of the torrent has a place. -/
theorem exists_placed {f : FileT} (hf : f ∈ tor.files) : ∃ p ∈ tor.placed, p.item = f := by
  have hitems := map_item_place (fun f : FileT => f.length.toNat) id tor.files 0 0
  rw [List.map_id] at hitems
  rw [← hitems] at hf
  exact List.mem_map.mp hf

theorem Portable.agree (h : Portable node cfg.extractDir tor) (hgeo : Layout tor payload)
    (hstrings : CStrings tor) (hopen : storageOpen fs cfg tor = (.opened st, calls))
    (hreliable : ∀ fi ∈ st.files, fi.fp.outcomes = []) : Agree node cfg tor st payload clock := by
  obtain ⟨archive, harchive⟩ := tarArchive_isSome clock hgeo h.fits
  obtain ⟨parts, hparts, rfl, hheaders⟩ := tarArchive_files hgeo harchive
  have hitem : ∀ p ∈ tor.placed, p.item ∈ tor.files := fun p hp => item_mem_of_mem_place hp
  have hall : (tor.placed.filter fun p => decide (0 < p.size)) = tor.placed := by
    rw [List.filter_eq_self]
    intro p hp
    rw [size_eq hp]
    exact decide_eq_true (h.nonempty _ (hitem p hp))
  rw [hall] at hparts
  have hencodes := forall₂_encodes hparts
    (fun p hp => ⟨hp, h.length_lt _ (hitem p hp), placed_stop_le hgeo hp⟩) (hheaders h.nonempty)
  refine ⟨_, _, _, harchive, read_flatten hencodes,
    (filesLeft_eq hgeo h.length_lt hopen hreliable).trans (if_pos h.distinct), fun e => ?_⟩
  have hsame : tor.placed.map (fileEntry payload) =
      tor.placed.map (storedEntry cfg.extractDir payload) :=
    List.map_congr_left fun p hp => by
      rw [fileEntry_eq hstrings hp, storedEntry, h.kept _ (hitem p hp)]
  rw [hsame]

/-- Names cut to different lengths are the same only if nothing is cut off. -/
theorem take_eq_take_of_length {s : Bytes} {m n : Nat} (h1 : (s.take m).length ≤ n)
    (h2 : (s.take n).length ≤ m) : s.take n = s.take m := by
  rw [List.length_take] at h1 h2
  rcases Nat.le_total s.length n with hn | hn
  · rw [List.take_of_length_le hn, List.take_of_length_le (by omega)]
  · rw [show n = min m s.length by omega, ← List.take_eq_take_min]

/-- If they agree on a payload of ones, the torrent is portable. -/
theorem Agree.portable
    (h : Agree node cfg tor st (List.replicate tor.totalLength.toNat 1) clock)
    (hgeo : Layout tor (List.replicate tor.totalLength.toNat 1)) (hstrings : CStrings tor)
    (hopen : storageOpen fs cfg tor = (.opened st, calls))
    (hreliable : ∀ fi ∈ st.files, fi.fp.outcomes = []) : Portable node cfg.extractDir tor := by
  obtain ⟨archive, es, files, harchive, hread, hfiles, hsame⟩ := h
  obtain ⟨parts, hparts, rfl, _⟩ := tarArchive_files hgeo harchive
  obtain ⟨hsmall, rfl⟩ := read_chunks hparts
    (fun p hp => ⟨List.mem_of_mem_filter hp, by simpa using (List.mem_filter.mp hp).2, by
      simpa using placed_stop_le hgeo (List.mem_of_mem_filter hp)⟩) hread
  have hlength_lt : ∀ f ∈ tor.files, f.length.toNat < 2 ^ 32 := by
    intro f hf
    obtain ⟨p, hp, rfl⟩ := exists_placed hf
    by_cases hpos : 0 < p.size
    · exact size_eq hp ▸ (hsmall p (List.mem_filter.mpr ⟨hp, decide_eq_true hpos⟩)).1
    · rw [← size_eq hp]
      omega
  rw [filesLeft_eq hgeo hlength_lt hopen hreliable] at hfiles
  split at hfiles
  · next hdistinct =>
    obtain rfl := Option.some.inj hfiles
    have hlength : ∀ p ∈ tor.placed,
        (part (List.replicate tor.totalLength.toNat (1 : UInt8)) p.start p.stop).length =
          p.size := by
      intro p hp
      rw [length_part (placed_stop_le hgeo hp), Placed.stop, Nat.add_sub_cancel_left]
    -- The storage leaves a file for every empty one, and no entry is empty.
    have hpos : ∀ p ∈ tor.placed, 0 < p.size := by
      intro p hp
      obtain ⟨q, hq, heq⟩ := List.mem_map.mp ((hsame _).mpr (List.mem_map_of_mem hp))
      obtain ⟨hq, hqpos⟩ := List.mem_filter.mp hq
      have hdata := congrArg (fun e : Entry => e.data.length) heq
      dsimp only [fileEntry, storedEntry] at hdata
      rw [hlength q hq, hlength p hp] at hdata
      exact hdata ▸ of_decide_eq_true hqpos
    have hall : (tor.placed.filter fun p => decide (0 < p.size)) = tor.placed :=
      List.filter_eq_self.mpr fun p hp => decide_eq_true (hpos p hp)
    rw [hall] at hsmall hsame
    refine ⟨?_, hlength_lt, ?_, ?_, hdistinct⟩
    · intro f hf
      obtain ⟨p, hp, rfl⟩ := exists_placed hf
      exact size_eq hp ▸ hpos p hp
    · intro f hf
      obtain ⟨p, hp, rfl⟩ := exists_placed hf
      exact (hsmall p hp).2
    · intro f hf
      obtain ⟨p, hp, rfl⟩ := exists_placed hf
      -- Each name is also one of the other kind, so it is no longer than those.
      obtain ⟨q, hq, hstored⟩ := List.mem_map.mp ((hsame _).mpr (List.mem_map_of_mem hp))
      obtain ⟨r, hr, hentry⟩ := List.mem_map.mp ((hsame _).mp (List.mem_map_of_mem hp))
      rw [fileEntry_eq hstrings hq] at hstored
      rw [fileEntry_eq hstrings hp] at hentry
      have hname := congrArg Entry.name hstored
      have hname' := congrArg Entry.name hentry
      dsimp only [storedEntry] at hname hname'
      refine take_eq_take_of_length ?_ ?_
      · rw [← hname]
        exact List.length_take_le _ _
      · rw [← hname']
        exact List.length_take_le _ _
  · cases hfiles

end Agreement

/-- For a torrent with consistent geometry whose files `storage_open` opened, the back ends
agree on every payload exactly if the torrent is portable. -/
theorem back_ends_agree_iff (node : Bytes → Nat) (fs : Fs) (cfg : Config) (tor : TorrentT)
    (st : Storage) (calls : List FsCall) (clock : List UInt64) (htiled : Tiled tor)
    (hpl : 0 < tor.pieceLength.toNat)
    (hstrings : CStrings tor) (hopen : storageOpen fs cfg tor = (.opened st, calls))
    (hreliable : ∀ fi ∈ st.files, fi.fp.outcomes = []) :
    (∀ payload, payload.length = tor.totalLength.toNat → Agree node cfg tor st payload clock) ↔
      Portable node cfg.extractDir tor := by
  have hgeo : ∀ payload : Bytes, payload.length = tor.totalLength.toNat → Layout tor payload :=
    fun payload hlength => ⟨hpl, hlength, htiled.sum_lengths, htiled.numPieces_eq⟩
  constructor
  · intro hagree
    have hlength := List.length_replicate (n := tor.totalLength.toNat) (a := (1 : UInt8))
    exact (hagree _ hlength).portable (hgeo _ hlength) hstrings hopen hreliable
  · intro hportable payload hlength
    exact hportable.agree (hgeo payload hlength) hstrings hopen hreliable

/-- A path as a number, different for different paths. -/
def pathNumber (path : Bytes) : Nat := path.foldl (fun n c => 256 * n + c.toNat) 1

/-- A torrent of two files, with the second of three pieces in both of them. -/
def sharedPiece : TorrentT :=
  { byteTorrent [7, 8, 9] with
    pieceLength := 2
    files := [⟨[ascii "a"], 3⟩, ⟨[ascii "d", ascii "b"], 3⟩]
    totalLength := 6 }

/-- The storage that is opened for it in the directory `out`. -/
def sharedPieceStorage : Storage where
  files := [⟨ascii "out/a", 0, 3, ⟨[], []⟩⟩, ⟨ascii "out/d/b", 3, 3, ⟨[], []⟩⟩]
  totalLength := 6
  pieceLength := 2
  extractDir := some (ascii "out")

/-- A piece in two files. -/
theorem back_ends_agree_iff_shared :
    (∀ payload : Bytes, payload.length = sharedPiece.totalLength.toNat →
        Agree pathNumber ⟨none, some (ascii "out")⟩ sharedPiece sharedPieceStorage payload []) ↔
      Portable pathNumber (some (ascii "out")) sharedPiece :=
  back_ends_agree_iff pathNumber .reliable ⟨none, some (ascii "out")⟩ sharedPiece
    sharedPieceStorage [.mkdir (ascii "out"), .fopen (ascii "out/a"), .mkdir (ascii "out"),
      .mkdir (ascii "out/d"), .fopen (ascii "out/d/b")] [] ⟨by decide, by decide⟩
    (by decide) (by decide +kernel) (by decide +kernel) (by decide +kernel)

/-- The empty one of three files is on disk, but not in the archive. -/
theorem archive_lacks_empty_file : Tiled threeFiles ∧
    (storageOpen .reliable ⟨none, some (ascii "out")⟩ threeFiles).1 = .opened threeFilesStorage ∧
      ¬ Agree pathNumber ⟨none, some (ascii "out")⟩ threeFiles threeFilesStorage [7, 8, 9] [] := by
  refine ⟨⟨by decide, by decide⟩, by decide +kernel, ?_⟩
  rintro ⟨archive, es, files, harchive, hread, hfiles, hsame⟩
  have hes : (tarArchive threeFiles [7, 8, 9] []).bind read =
      some [⟨ascii "a", [7]⟩, ⟨ascii "c", [8, 9]⟩] := by decide +kernel
  have hleft : filesLeft pathNumber (some (ascii "out"))
      (writePieces threeFiles [7, 8, 9] (pieceIndices threeFiles) threeFilesStorage) =
        some [⟨ascii "a", [7]⟩, ⟨ascii "b", []⟩, ⟨ascii "c", [8, 9]⟩] := by decide +kernel
  rw [harchive, Option.bind_some, hread] at hes
  obtain rfl := Option.some.inj hes
  obtain rfl := Option.some.inj (hfiles.symm.trans hleft)
  exact absurd ((hsame ⟨ascii "b", []⟩).mpr (by decide +kernel)) (by decide +kernel)

end CourseWork.Torrent
