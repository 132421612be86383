import CourseWork.Torrent.TarInOrder

/-!
# The exact archive

The bytes that `tar_writer_write` and `tar_writer_close` write for the pieces in order: for
each file that is not empty its header, its data and padding, and the end mark. The writer
compares the index of a file as an `int` with that of the file before, so that files with
indices that differ by a multiple of `2 ^ 32` are one to it.
-/

namespace CourseWork.Torrent
open CLib Ustar Tiling

/-! ## Entries -/

/-- The number of zero bytes from `n` to the next multiple of 512. -/
def paddingLength (n : Nat) : Nat := (512 - n % 512) % 512

/-- The entry of a file: its header, its bytes, and padding. -/
def exactEntry (f : FileT) (time : UInt64) (bytes : Bytes) : Bytes :=
  (tarHeader (joinPath f.path) f.length time).bytes ++
    (bytes ++ List.replicate (paddingLength bytes.length) 0)

/-- The entries of the files that are not empty, in order, with their bytes of the payload
from `o` on. The headers take their times from the clock. -/
def exactEntries (payload : Bytes) : Nat → List UInt64 → List FileT → List Bytes
  | _, _, [] => []
  | o, clock, f :: files =>
    let stop := o + f.length.toNat
    if 0 < f.length.toNat then
      exactEntry f (clock.headD 0) (part payload o stop) :: exactEntries payload stop clock.tail files
    else exactEntries payload stop clock files

/-- The archive of the files: their entries and 1024 zero bytes. No piece length is in it. -/
def exactArchive (files : List FileT) (payload : Bytes) (clock : List UInt64) : Bytes :=
  (exactEntries payload 0 clock files).flatten ++ List.replicate 1024 0

/-- No file that is not empty has the index of the one before it as an `int`. Before the
first one the index is `current`. -/
def HeadersDue : Int32 → Nat → List FileT → Prop
  | _, _, [] => True
  | current, i, f :: files =>
    if 0 < f.length.toNat then current ≠ Int32.ofNat i ∧ HeadersDue (Int32.ofNat i) (i + 1) files
    else HeadersDue current (i + 1) files

instance decidableHeadersDue : ∀ (current : Int32) (i : Nat) (files : List FileT),
    Decidable (HeadersDue current i files)
  | _, _, [] => isTrue trivial
  | current, i, f :: files =>
    have := decidableHeadersDue (Int32.ofNat i) (i + 1) files
    have := decidableHeadersDue current (i + 1) files
    inferInstanceAs (Decidable (if 0 < f.length.toNat
      then current ≠ Int32.ofNat i ∧ HeadersDue (Int32.ofNat i) (i + 1) files
      else HeadersDue current (i + 1) files))

theorem length_exactEntry (f : FileT) (time : UInt64) (bytes : Bytes) :
    (exactEntry f time bytes).length = 512 + (bytes.length + paddingLength bytes.length) := by
  rw [exactEntry, List.length_append, List.length_append, List.length_replicate,
    (sized_tarHeader _ _ _).length_bytes]

/-- Every entry is a number of whole blocks. -/
theorem exactEntries_blocks (payload : Bytes) : ∀ {o : Nat} {clock : List UInt64} {files : List FileT},
    ∀ entry ∈ exactEntries payload o clock files, entry.length % 512 = 0
  | _, _, [], _, h => absurd h List.not_mem_nil
  | o, clock, f :: files, entry, h => by
    rw [exactEntries] at h
    split at h
    · rcases List.mem_cons.mp h with rfl | h
      · rw [length_exactEntry, paddingLength]
        omega
      · exact exactEntries_blocks payload entry h
    · exact exactEntries_blocks payload entry h

/-- So every header starts at a multiple of 512. -/
theorem length_flatten_take {entries : List Bytes} (h : ∀ entry ∈ entries, entry.length % 512 = 0) :
    ∀ n, (entries.take n).flatten.length % 512 = 0 := by
  induction entries with
  | nil => intro n; rw [List.take_nil, List.flatten_nil, List.length_nil]
  | cons entry entries ih =>
    intro n
    cases n with
    | zero => rfl
    | succ n =>
      have hfirst := h entry List.mem_cons_self
      have hrest := ih (fun e he => h e (List.mem_cons_of_mem _ he)) n
      rw [List.take_succ_cons, List.flatten_cons, List.length_append]
      omega

/-- The times do not change the length. -/
theorem length_exactEntries (payload : Bytes) :
    ∀ {o : Nat} {clock : List UInt64} (clock' : List UInt64) {files : List FileT},
      (exactEntries payload o clock files).flatten.length =
        (exactEntries payload o clock' files).flatten.length
  | _, _, _, [] => rfl
  | o, clock, clock', f :: files => by
    rw [exactEntries, exactEntries]
    split
    · rw [List.flatten_cons, List.flatten_cons, List.length_append, List.length_append,
        length_exactEntry, length_exactEntry, length_exactEntries payload clock'.tail]
    · exact length_exactEntries payload clock'

/-! ## Files -/

section Files

variable {tor : TorrentT} {payload bytes : Bytes} {tw tw' : TarWriter} {p : Placed FileT}

/-- All files: their entries, if all headers are due, and less otherwise. -/
theorem writeRange_exact (l : List FileT) : ∀ {i o : Nat} {bytes : Bytes} {tw tw' : TarWriter},
    o + (l.map fun f => f.length.toNat).sum ≤ payload.length →
    Streaming tor bytes tw → bytes.length % 512 = 0 →
    writeRange payload 0 payload.length (place (fun f => f.length.toNat) i o l) tw = some tw' →
    ∃ written, Streaming tor (bytes ++ written) tw' ∧ (bytes ++ written).length % 512 = 0 ∧
      (HeadersDue tw.currentFileIndex i l →
        written = (exactEntries payload o tw.clock l).flatten) ∧
      (¬HeadersDue tw.currentFileIndex i l →
        written.length < (exactEntries payload o tw.clock l).flatten.length) := by
  induction l with
  | nil =>
    intro i o bytes tw tw' _ h halign hwrite
    cases hwrite
    refine ⟨[], ?_, ?_, fun _ => rfl, fun hnot => absurd trivial hnot⟩
    · rwa [List.append_nil]
    · rwa [List.append_nil]
  | cons f l ih =>
    intro i o bytes tw tw' hsum h halign hwrite
    rw [List.map_cons, List.sum_cons] at hsum
    obtain ⟨tw1, hfile, hrest⟩ := Option.bind_eq_some_iff.mp hwrite
    have hstop : (⟨i, o, f.length.toNat, f⟩ : Placed FileT).stop = o + f.length.toNat := rfl
    have hsum' : o + f.length.toNat + (l.map fun f => f.length.toNat).sum ≤ payload.length := by
      omega
    dsimp only at hfile
    rw [Nat.max_eq_right (Nat.zero_le o), Nat.min_eq_right (by omega)] at hfile
    rw [HeadersDue, exactEntries]
    by_cases hpos : 0 < f.length.toNat
    · obtain ⟨hdr, n, hentered, hn, hblock, hstream, halign1, hcurrent⟩ :=
        h.file halign (p := ⟨i, o, f.length.toNat, f⟩) hpos (by omega) hfile
      obtain ⟨written, hstream', halign', hdue, hmissing⟩ := ih hsum' hstream halign1 hrest
      rw [hcurrent] at hdue hmissing
      dsimp only at hstream' halign' hblock hentered hdue hmissing
      rw [hstop, List.append_assoc] at hstream' halign'
      rw [if_pos hpos, if_pos hpos, List.flatten_cons, List.length_append, length_exactEntry]
      have hlength : (part payload o (o + f.length.toNat)).length = f.length.toNat := by
        rw [length_part (by omega), Nat.add_sub_cancel_left]
      have hpadding : n = paddingLength f.length.toNat := by
        rw [paddingLength]
        omega
      refine ⟨_, hstream', halign', ?_, ?_⟩
      · rintro ⟨hnew, hdues⟩
        rcases hentered with ⟨hsame, _⟩ | ⟨_, _, rfl, hclock⟩
        · exact absurd hsame hnew
        · rw [hdue hdues, exactEntry, hlength, ← hpadding, hclock]
      · intro hnot
        -- Whether the headers behind are due or not, there is not too much behind the file.
        have hrestle : written.length ≤
            (exactEntries payload (o + f.length.toNat) tw.clock.tail l).flatten.length := by
          rw [length_exactEntries payload tw1.clock]
          by_cases hdues : HeadersDue (Int32.ofNat i) (i + 1) l
          · rw [hdue hdues]
          · exact Nat.le_of_lt (hmissing hdues)
        rw [List.length_append, List.length_append, List.length_append, List.length_replicate, hlength,
          hpadding]
        rcases hentered with ⟨_, rfl, _⟩ | ⟨hnew, _, rfl, _⟩
        · rw [List.length_nil]
          omega
        · have hmissing := hmissing fun hdues => hnot ⟨hnew, hdues⟩
          rw [length_exactEntries payload tw.clock.tail] at hmissing
          rw [(sized_tarHeader _ _ _).length_bytes]
          omega
    · rw [if_neg hpos, if_neg hpos]
      rw [writeFragment, if_neg (by omega)] at hfile
      cases hfile
      exact ih hsum' h halign hrest

/-- Files that are empty do not count. -/
theorem headersDue_replicate {f : FileT} (hempty : ¬0 < f.length.toNat) (n : Nat) (l : List FileT) :
    ∀ {current : Int32} {i : Nat},
      HeadersDue current i (List.replicate n f ++ l) ↔ HeadersDue current (i + n) l := by
  induction n with
  | zero => exact Iff.rfl
  | succ n ih =>
    intro current i
    rw [List.replicate_succ, List.cons_append, HeadersDue, if_neg hempty, ih,
      show i + 1 + n = i + (n + 1) by omega]

end Files

/-! ## The archive -/

section Archive

variable {tor : TorrentT} {payload : Bytes}

/-- The archive is the exact one, if all headers are due, and shorter otherwise. -/
theorem tarArchive_exact (hgeo : Layout tor payload)
    (hpaths : ∀ f ∈ tor.files, (joinPath f.path).length < pathLen) (clock : List UInt64) :
    tarArchive tor payload clock = some (exactArchive tor.files payload clock) ↔
      HeadersDue (-1) 0 tor.files := by
  obtain ⟨tw, hrange⟩ := writeRange_isSome payload 0 payload.length tor.placed
    (tarWriterOpen ⟨[], []⟩ clock tor) fun p hp => hpaths p.item (item_mem_of_mem_place hp)
  have hsum := hgeo.sum_lengths
  have hlength := hgeo.length_payload
  obtain ⟨written, hstream, halign, hdue, hmissing⟩ := writeRange_exact tor.files (by omega)
    (show Streaming tor [] _ from ⟨rfl, rfl, rfl⟩) rfl hrange
  rw [tarArchive, tarPieces_eq hgeo rfl rfl, hrange, Option.map_some, hstream.close halign,
    List.nil_append, exactArchive, Option.some_inj, endMark, List.append_left_inj]
  refine ⟨fun heq => ?_, hdue⟩
  by_contra hnot
  exact absurd (congrArg List.length heq) (Nat.ne_of_lt (hmissing hnot))

/-- `tar_writer_write` for the pieces in order and `tar_writer_close` write exactly the
entries of the files that are not empty, each from a multiple of 512 on, and the end mark,
if and only if all headers are due. -/
theorem tar_stream_exact_iff (tor : TorrentT) (payload : Bytes) (clock : List UInt64)
    (hgeo : Layout tor payload) (hpaths : ∀ f ∈ tor.files, (joinPath f.path).length < pathLen) :
    (tarArchive tor payload clock = some (exactArchive tor.files payload clock) ∧
      ∀ n, ((exactEntries payload 0 clock tor.files).take n).flatten.length % 512 = 0) ↔
    HeadersDue (-1) 0 tor.files :=
  ⟨fun h => (tarArchive_exact hgeo hpaths clock).mp h.1, fun h =>
    ⟨(tarArchive_exact hgeo hpaths clock).mpr h, length_flatten_take (exactEntries_blocks payload)⟩⟩

end Archive

/-- A torrent of some empty files and one of a byte behind them. -/
def lateTorrent (empties : Nat) : TorrentT :=
  { byteTorrent [7] with
    files := List.replicate empties ⟨[ascii "a"], 0⟩ ++ [⟨[ascii "b"], 1⟩] }

theorem layout_lateTorrent (empties : Nat) : Layout (lateTorrent empties) [7] where
  pieceLength_pos := by
    show 0 < (1 : UInt32).toNat
    decide
  length_payload := rfl
  sum_lengths := by
    rw [lateTorrent, List.map_append, List.sum_append, List.map_replicate, List.sum_replicate]
    rfl
  numPieces_eq := by
    show (UInt32.ofNat 1).toNat =
      ((UInt64.ofNat 1).toNat + (1 : UInt32).toNat - 1) / (1 : UInt32).toNat
    decide

theorem paths_lateTorrent {empties : Nat} :
    ∀ f ∈ (lateTorrent empties).files, (joinPath f.path).length < pathLen := by
  intro f hf
  rcases List.mem_append.mp hf with hf | hf
  · rw [(List.mem_replicate.mp hf).2]
    decide
  · rw [List.mem_singleton.mp hf]
    decide

/-- The file behind the empty ones gets no header if its index is -1 as an `int`. -/
theorem headless_lateTorrent {empties : Nat} (h : -1 = Int32.ofNat empties) :
    tarArchive (lateTorrent empties) [7] [] ≠
      some (exactArchive (lateTorrent empties).files [7] []) := by
  intro hexact
  have hdue := (tarArchive_exact (layout_lateTorrent empties) paths_lateTorrent []).mp hexact
  have hlate := (headersDue_replicate (by decide) empties _).mp hdue
  rw [HeadersDue, if_pos (by decide), Nat.zero_add] at hlate
  exact hlate.1 h

/-- With a small index it gets its header. -/
theorem tar_stream_exact_late :
    (tarArchive (lateTorrent 1) [7] [] = some (exactArchive (lateTorrent 1).files [7] []) ∧
      ∀ n, ((exactEntries [7] 0 [] (lateTorrent 1).files).take n).flatten.length % 512 = 0) ↔
    HeadersDue (-1) 0 (lateTorrent 1).files :=
  tar_stream_exact_iff (lateTorrent 1) [7] [] (layout_lateTorrent 1) paths_lateTorrent

example : HeadersDue (-1) 0 (lateTorrent 1).files := by decide

/-- With 4294967295 empty files before it, its header is missing. -/
theorem tar_stream_headless : Layout (lateTorrent 4294967295) [7] ∧
    (∀ f ∈ (lateTorrent 4294967295).files, (joinPath f.path).length < pathLen) ∧
    tarArchive (lateTorrent 4294967295) [7] [] ≠
      some (exactArchive (lateTorrent 4294967295).files [7] []) :=
  ⟨layout_lateTorrent _, paths_lateTorrent, headless_lateTorrent (by decide)⟩

end CourseWork.Torrent
