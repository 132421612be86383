import CourseWork.Torrent.Download
import CourseWork.Torrent.StorageWrite

/-!
# The calls that write data

What the `fseek` and `fwrite` calls of `storage_write` and `tar_writer_write` accept of a
piece. Neither function reports it, so that the loop over the pieces cannot know.
-/

namespace CourseWork.Torrent
open CLib

/-! ## Calls -/

/-- A call that writes the bytes `start .. start + asked` of a piece. The first `taken` of
them were accepted: what `fwrite` returned, or none if `fseek` failed. -/
structure DataCall where
  start : Nat
  asked : Nat
  taken : Nat
  deriving DecidableEq

/-- How many bytes an `fseek` and an `fwrite` accept. -/
def DiskFile.accepted (f : DiskFile) (pos : UInt64) (data : Bytes) : Nat :=
  match f.outcomes.headD (some data.length) with
  | none => 0
  | some n => if pos.toNat < 2 ^ 63 then min n data.length else 0

/-- How many bytes an `fwrite` to standard output accepts. -/
def OutStream.accepted (out : OutStream) (data : Bytes) : Nat :=
  min (out.limits.headD data.length) data.length

/-- The call of `storage_write` for a file, if the piece overlaps it. -/
def FileInfo.call (pieceStart pieceEnd : UInt64) (data : Bytes) (fi : FileInfo) :
    Option DataCall :=
  (overlap pieceStart pieceEnd fi.offset fi.length).map fun o =>
    ⟨o.inPiece.toNat, o.bytes.toNat, fi.fp.accepted o.inFile (o.data data)⟩

/-- The calls of `storage_write`. -/
def storageCalls (st : Storage) (pieceIndex : UInt32) (data : Bytes) (len : UInt32) :
    List DataCall :=
  let pieceStart := pieceIndex.toUInt64 * st.pieceLength.toUInt64
  let pieceEnd := pieceStart + len.toUInt64
  st.files.filterMap (FileInfo.call pieceStart pieceEnd data)

/-- The call of `tar_writer_write` for the data of file `i`, behind its header. -/
def filePartCall (pieceStart pieceEnd : UInt64) (data : Bytes) (i : Nat) (f : FileT)
    (fileStart : UInt64) (tw : TarWriter) : Option DataCall := do
  let o ← overlap pieceStart pieceEnd fileStart f.length
  let tw ← enterFile tw i f
  return ⟨o.inPiece.toNat, o.bytes.toNat, tw.out.accepted (o.data data)⟩

/-- The calls of its loop over the files from `i` on. -/
def filePartCalls (pieceStart pieceEnd : UInt64) (data : Bytes) :
    Nat → UInt64 → List FileT → TarWriter → List DataCall
  | _, _, [], _ => []
  | i, fileStart, f :: files, tw =>
    (filePartCall pieceStart pieceEnd data i f fileStart tw).toList ++
      match writeFilePart pieceStart pieceEnd data i f fileStart tw with
      | some tw => filePartCalls pieceStart pieceEnd data (i + 1) (fileStart + f.length) files tw
      | none => []

/-- The calls of `tar_writer_write` for the data. -/
def tarCalls (tw : TarWriter) (pieceIndex : UInt32) (data : Bytes) (len : UInt32) :
    List DataCall :=
  let pieceStart := pieceIndex.toUInt64 * tw.tor.pieceLength.toUInt64
  let pieceEnd := pieceStart + len.toUInt64
  filePartCalls pieceStart pieceEnd data 0 0 tw.tor.files tw

/-- The calls that write the data of a piece. -/
def Output.calls (out : Output) (i : UInt32) (buf : Bytes) (pieceLen : UInt32) :
    List DataCall :=
  match out with
  | .tar tw => tarCalls tw i buf pieceLen
  | .storage st => storageCalls st i buf pieceLen

/-! ## Accepted pieces -/

/-- The call was to write byte `k` of the piece. -/
def DataCall.Asks (c : DataCall) (k : Nat) : Prop := c.start ≤ k ∧ k < c.start + c.asked

/-- The byte was accepted. -/
def DataCall.Takes (c : DataCall) (k : Nat) : Prop := c.start ≤ k ∧ k < c.start + c.taken

instance (c : DataCall) (k : Nat) : Decidable (c.Asks k) :=
  inferInstanceAs (Decidable (_ ∧ _))

instance (c : DataCall) (k : Nat) : Decidable (c.Takes k) :=
  inferInstanceAs (Decidable (_ ∧ _))

/-- Every byte of a piece of the given length was to be written, and accepted wherever it
was. -/
def Taken (calls : List DataCall) (len : Nat) : Prop :=
  ∀ k < len, (∃ c ∈ calls, c.Asks k) ∧ ∀ c ∈ calls, c.Asks k → c.Takes k

/-- No call failed or was short, and there was one for every byte. -/
def Complete (calls : List DataCall) (len : Nat) : Prop :=
  (∀ c ∈ calls, c.taken = c.asked) ∧ ∀ k < len, ∃ c ∈ calls, c.Asks k

/-- The call stays in a piece of the given length. -/
def DataCall.Within (len : Nat) (c : DataCall) : Prop :=
  c.taken ≤ c.asked ∧ c.start + c.asked ≤ len

theorem taken_iff_complete {calls : List DataCall} {len : Nat}
    (h : ∀ c ∈ calls, c.Within len) : Taken calls len ↔ Complete calls len := by
  constructor
  · intro htaken
    refine ⟨fun c hc => ?_, fun k hk => (htaken k hk).1⟩
    obtain ⟨hle, hend⟩ := h c hc
    -- The last byte asked for decides.
    by_contra hne
    have hlast : c.Asks (c.start + c.asked - 1) := ⟨by omega, by omega⟩
    have htakes := (htaken _ (by omega)).2 c hc hlast
    have := htakes.2
    omega
  · intro hcomplete k hk
    refine ⟨hcomplete.2 k hk, fun c hc hasks => ?_⟩
    rw [DataCall.Takes, hcomplete.1 c hc]
    exact hasks

theorem overlap_within {pieceStart len fileStart length : UInt64} {o : Overlap} {taken : Nat}
    (hlen : (pieceStart + len).toNat = pieceStart.toNat + len.toNat)
    (h : overlap pieceStart (pieceStart + len) fileStart length = some o)
    (htaken : taken ≤ o.bytes.toNat) :
    DataCall.Within len.toNat ⟨o.inPiece.toNat, o.bytes.toNat, taken⟩ := by
  obtain ⟨hlt, _, hin, hbytes⟩ := overlap_some h
  refine ⟨htaken, ?_⟩
  dsimp only
  omega

theorem filePartCalls_within {pieceStart len : UInt64} {data : Bytes}
    (hlen : (pieceStart + len).toNat = pieceStart.toNat + len.toNat) :
    ∀ (files : List FileT) (i : Nat) (fileStart : UInt64) (tw : TarWriter),
      ∀ c ∈ filePartCalls pieceStart (pieceStart + len) data i fileStart files tw,
        c.Within len.toNat
  | [], _, _, _ => fun _ hc => absurd hc List.not_mem_nil
  | f :: files, i, fileStart, tw => by
    intro c hc
    rw [filePartCalls] at hc
    rcases List.mem_append.mp hc with hc | hc
    · rw [Option.mem_toList] at hc
      obtain ⟨o, ho, hc⟩ := Option.bind_eq_some_iff.mp hc
      obtain ⟨tw1, _, hc⟩ := Option.bind_eq_some_iff.mp hc
      cases hc
      exact overlap_within hlen ho
        (Nat.le_trans (Nat.min_le_right _ _) (List.length_take_le _ _))
    · split at hc
      · exact filePartCalls_within hlen files _ _ _ c hc
      · exact absurd hc List.not_mem_nil

theorem DiskFile.accepted_le (f : DiskFile) (pos : UInt64) (data : Bytes) :
    f.accepted pos data ≤ data.length := by
  unfold DiskFile.accepted
  split
  · exact Nat.zero_le _
  · split
    · exact Nat.min_le_right _ _
    · exact Nat.zero_le _

/-- No call leaves the piece. -/
theorem Output.calls_within (out : Output) (i : UInt32) (buf : Bytes) (len : UInt32) :
    ∀ c ∈ out.calls i buf len, c.Within len.toNat := by
  have hstop : ∀ pieceLength : UInt32,
      (i.toUInt64 * pieceLength.toUInt64 + len.toUInt64).toNat =
        (i.toUInt64 * pieceLength.toUInt64).toNat + len.toUInt64.toNat := by
    intro pieceLength
    rw [toNat_pieceEnd, toNat_pieceStart, UInt32.toNat_toUInt64]
  rw [← UInt32.toNat_toUInt64]
  cases out with
  | tar tw => exact filePartCalls_within (hstop _) tw.tor.files 0 0 tw
  | storage st =>
    intro c hc
    obtain ⟨fi, _, hc⟩ := List.mem_filterMap.mp hc
    obtain ⟨o, ho, rfl⟩ := Option.map_eq_some_iff.mp hc
    exact overlap_within (hstop _) ho
      (Nat.le_trans (DiskFile.accepted_le _ _ _) (List.length_take_le _ _))

end CourseWork.Torrent
