import CourseWork.Torrent.DownloadInvariant
import CourseWork.Torrent.OutputCalls

/-!
# Reported success

When a piece that `download_pieces` counts as done is one that the output accepted. The
loop marks every piece that it hands over, so the answer is in what the calls accepted.
-/

namespace CourseWork.Torrent
open CLib Prog Bitmap

/-! ## What was accepted -/

/-- The output after what a history hands over, and the calls that wrote each piece, the
latest first. There is no output after a write that is undefined. -/
def replay (tor : TorrentT) (out : Output) :
    List Event → Option Output × List (UInt32 × List DataCall)
  | [] => (some out, [])
  | .head _ _ :: log => replay tor out log
  | .handed i buf :: log =>
    match replay tor out log with
    | (some out, made) =>
      match out.write i buf (pieceSize tor i) with
      | some out' => (some out', (i, out.calls i buf (pieceSize tor i)) :: made)
      | none => (none, made)
    | (none, made) => (none, made)

/-- The piece was written, and all of its bytes were accepted. -/
def Accepted (tor : TorrentT) (out : Output) (log : List Event) (i : UInt32) : Prop :=
  ∃ calls, (i, calls) ∈ (replay tor out log).2 ∧ Taken calls (pieceSize tor i).toNat

/-- What the bitmap and the counter report at a point of the history: a piece is only
marked if it was accepted, and the counter only went down for such pieces. -/
structure Reported (tor : TorrentT) (out : Output) (piecesDone : Bytes) (piecesLeft : Int)
    (log : List Event) : Prop where
  marks : ∀ i, i < tor.numPieces → isDone piecesDone i = true → Accepted tor out log i
  left : ∃ accepted : List UInt32, accepted.Nodup ∧
    (∀ i ∈ accepted, i < tor.numPieces ∧ Accepted tor out log i) ∧
    piecesLeft = tor.numPieces.toInt32.toInt - accepted.length

/-- A reported success means that the data were accepted, at every loop head and at the
end. -/
structure SuccessReal (tor : TorrentT) (out : Output) (r : Except Stop Int × World) : Prop where
  heads : ∀ piecesDone piecesLeft earlier, .head piecesDone piecesLeft :: earlier <:+ r.2.log →
    Reported tor out piecesDone piecesLeft earlier
  last : Reported tor out r.2.piecesDone r.2.piecesLeft r.2.log
  result : r.1 = .ok 0 → ∀ i, i < tor.numPieces → Accepted tor out r.2.log i

/-- No call that wrote the data of a piece failed or was short, and every byte of the
pieces was in a file. -/
def NoFailure (tor : TorrentT) (out : Output) (log : List Event) : Prop :=
  ∀ x ∈ (replay tor out log).2, Complete x.2 (pieceSize tor x.1).toNat

/-! ## Marks and writes -/

/-- The pieces that were written. -/
def written (tor : TorrentT) (out : Output) (log : List Event) : List UInt32 :=
  (replay tor out log).2.map Prod.fst

/-- The bitmap and the counter at a point of the history: what was written is marked and
counted. -/
structure Tally (tor : TorrentT) (out : Output) (piecesDone : Bytes) (piecesLeft : Int)
    (log : List Event) : Prop where
  done : ∀ i, i < tor.numPieces → (isDone piecesDone i = true ↔ i ∈ written tor out log)
  left : piecesLeft = tor.numPieces.toInt32.toInt - (written tor out log).length
  nodup : (written tor out log).Nodup
  lt : ∀ i ∈ written tor out log, i < tor.numPieces

section Histories

variable {tor : TorrentT} {out : Output} {piecesDone : Bytes} {piecesLeft : Int}
  {log : List Event}

/-- What handing over a piece adds, as far as the output is defined. -/
theorem replay_written {i : UInt32} {buf : Bytes} {out1 out' : Output}
    (hout : (replay tor out log).1 = some out1)
    (hwrite : out1.write i buf (pieceSize tor i) = some out') :
    replay tor out (.handed i buf :: log) =
      (some out', (i, out1.calls i buf (pieceSize tor i)) :: (replay tor out log).2) := by
  rw [replay]
  generalize replay tor out log = r at hout
  obtain ⟨result, made⟩ := r
  obtain rfl : result = some out1 := hout
  dsimp only
  rw [hwrite]

theorem replay_undefined {i : UInt32} {buf : Bytes} {out1 : Output}
    (hout : (replay tor out log).1 = some out1)
    (hwrite : out1.write i buf (pieceSize tor i) = none) :
    replay tor out (.handed i buf :: log) = (none, (replay tor out log).2) := by
  rw [replay]
  generalize replay tor out log = r at hout
  obtain ⟨result, made⟩ := r
  obtain rfl : result = some out1 := hout
  dsimp only
  rw [hwrite]

theorem replay_handed_cases (tor : TorrentT) (out : Output) (i : UInt32) (buf : Bytes)
    (log : List Event) :
    (∃ out1 out', (replay tor out log).1 = some out1 ∧
      out1.write i buf (pieceSize tor i) = some out' ∧
      replay tor out (.handed i buf :: log) =
        (some out', (i, out1.calls i buf (pieceSize tor i)) :: (replay tor out log).2)) ∨
      replay tor out (.handed i buf :: log) = (none, (replay tor out log).2) := by
  cases hout : (replay tor out log).1 with
  | none =>
    refine .inr ?_
    rw [replay]
    generalize replay tor out log = r at hout
    obtain ⟨result, made⟩ := r
    obtain rfl : result = none := hout
    rfl
  | some out1 =>
    cases hwrite : out1.write i buf (pieceSize tor i) with
    | none => exact .inr (replay_undefined hout hwrite)
    | some out' => exact .inl ⟨out1, out', rfl, hwrite, replay_written hout hwrite⟩

theorem replay_within : ∀ (log : List Event) {x : UInt32 × List DataCall},
    x ∈ (replay tor out log).2 → ∀ c ∈ x.2, c.Within (pieceSize tor x.1).toNat
  | [], _, hx => absurd hx List.not_mem_nil
  | .head _ _ :: log, _, hx => replay_within log hx
  | .handed i buf :: log, x, hx => by
    rcases replay_handed_cases tor out i buf log with ⟨out1, _, _, _, heq⟩ | heq
    · rw [heq] at hx
      rcases List.mem_cons.mp hx with rfl | hx
      · exact out1.calls_within i buf (pieceSize tor i)
      · exact replay_within log hx
    · rw [heq] at hx
      exact replay_within log hx

/-- What an earlier history wrote is part of what a later one wrote. -/
theorem replay_mono {earlier : List Event} (h : earlier <:+ log) {x : UInt32 × List DataCall}
    (hx : x ∈ (replay tor out earlier).2) : x ∈ (replay tor out log).2 := by
  induction log with
  | nil => rwa [List.suffix_nil.mp h] at hx
  | cons e log ih =>
    rcases List.suffix_cons_iff.mp h with rfl | h
    · exact hx
    · have hmem := ih h
      cases e with
      | head _ _ => exact hmem
      | handed i buf =>
        rcases replay_handed_cases tor out i buf log with ⟨_, _, _, _, heq⟩ | heq
        · rw [heq]
          exact List.mem_cons_of_mem _ hmem
        · rw [heq]
          exact hmem

theorem NoFailure.mono {earlier : List Event} (h : NoFailure tor out log)
    (hsuffix : earlier <:+ log) : NoFailure tor out earlier :=
  fun x hx => h x (replay_mono hsuffix hx)

theorem Accepted.of_noFailure (h : NoFailure tor out log) {i : UInt32}
    (hi : i ∈ written tor out log) : Accepted tor out log i := by
  obtain ⟨x, hx, rfl⟩ := List.mem_map.mp hi
  exact ⟨x.2, hx, (taken_iff_complete (replay_within log hx)).mpr (h x hx)⟩

/-- What is reported was accepted exactly if no call failed. -/
theorem Tally.reported_iff (h : Tally tor out piecesDone piecesLeft log) :
    Reported tor out piecesDone piecesLeft log ↔ NoFailure tor out log := by
  constructor
  · rintro hreported ⟨i, calls⟩ hx
    have hi : i ∈ written tor out log := List.mem_map_of_mem hx
    have hlt := h.lt i hi
    obtain ⟨calls', hcalls', htaken⟩ := hreported.marks i hlt ((h.done i hlt).mpr hi)
    -- No piece was written twice, so these are its calls.
    have heq : (i, calls') = (i, calls) := List.inj_on_of_nodup_map h.nodup hcalls' hx rfl
    cases heq
    exact (taken_iff_complete (replay_within log hx)).mp htaken
  · intro hno
    refine ⟨fun i hi hdone => .of_noFailure hno ((h.done i hi).mp hdone),
      written tor out log, h.nodup, fun i hi => ⟨h.lt i hi, .of_noFailure hno hi⟩, h.left⟩

/-- When the counter is 0, every piece was written. -/
theorem Tally.all_written (h : Tally tor out piecesDone 0 log) {i : UInt32}
    (hi : i < tor.numPieces) : i ∈ written tor out log := by
  have hleft := h.left
  have hcases := toInt_numPieces_cases tor
  -- As many different pieces as there are.
  have hsub : (written tor out log).map UInt32.toNat ⊆ List.range tor.numPieces.toNat := by
    intro k hk
    obtain ⟨j, hj, rfl⟩ := List.mem_map.mp hk
    exact List.mem_range.mpr (UInt32.lt_iff_toNat_lt.mp (h.lt j hj))
  have hnodup : ((written tor out log).map UInt32.toNat).Nodup :=
    h.nodup.map fun _ _ heq => UInt32.toNat_inj.mp heq
  have hperm := (hnodup.subperm hsub).perm_of_length_le
    (by rw [List.length_range, List.length_map]; omega)
  have hmem := hperm.mem_iff.mpr (List.mem_range.mpr (UInt32.lt_iff_toNat_lt.mp hi))
  obtain ⟨j, hj, heq⟩ := List.mem_map.mp hmem
  exact UInt32.toNat_inj.mp heq ▸ hj

end Histories

/-! ## The loop -/

/-- At every loop head of the history, and at its end, what was written is marked and
counted. -/
structure AllTallied (tor : TorrentT) (out : Output) (w : World) : Prop where
  heads : ∀ piecesDone piecesLeft earlier, .head piecesDone piecesLeft :: earlier <:+ w.log →
    Tally tor out piecesDone piecesLeft earlier
  last : Tally tor out w.piecesDone w.piecesLeft w.log

/-- The loop invariant. -/
structure Tallied (tor : TorrentT) (out : Output) (w : World) : Prop where
  all : AllTallied tor out w
  length : w.piecesDone.length = (tor.numPieces.toNat + 7) / 8
  out : (replay tor out w.log).1 = some w.out

section Steps

variable {sha1 : Bytes → Bytes} {tor : TorrentT} {out : Output}

theorem tallied_net (w : World) (net : Net) (h : Tallied tor out w) :
    Tallied tor out { w with net := net } :=
  ⟨⟨h.all.heads, h.all.last⟩, h.length, h.out⟩

theorem AllTallied.head {w : World} (h : AllTallied tor out w) :
    AllTallied tor out { w with log := .head w.piecesDone w.piecesLeft :: w.log } := by
  refine ⟨fun piecesDone piecesLeft earlier hsuffix => ?_,
    ⟨h.last.done, h.last.left, h.last.nodup, h.last.lt⟩⟩
  rcases List.suffix_cons_iff.mp hsuffix with heq | hsuffix
  · cases heq
    exact h.last
  · exact h.heads _ _ _ hsuffix

theorem loopHead_tallied :
    Triple (Tallied tor out) loopHead (fun _ => Tallied tor out) (AllTallied tor out) :=
  Triple.modify fun _ h => ⟨h.all.head, h.length, h.out⟩

/-- A write that is undefined leaves no mark. -/
theorem Tallied.undefined {w : World} (h : Tallied tor out w) {i : UInt32} {buf : Bytes}
    (hwrite : w.out.write i buf (pieceSize tor i) = none) :
    AllTallied tor out { w with log := .handed i buf :: w.log } := by
  have hwritten : written tor out (.handed i buf :: w.log) = written tor out w.log := by
    rw [written, replay_undefined h.out hwrite, written]
  refine ⟨fun piecesDone piecesLeft earlier hsuffix => ?_, ?_⟩
  · exact h.all.heads _ _ _ ((List.suffix_cons_iff.mp hsuffix).resolve_left nofun)
  · obtain ⟨hdone, hleft, hnodup, hlt⟩ := h.all.last
    rw [← hwritten] at hdone hleft hnodup hlt
    exact ⟨hdone, hleft, hnodup, hlt⟩

/-- A piece that is new is written and marked. -/
theorem Tallied.handed {w : World} (h : Tallied tor out w) {i : UInt32} {buf : Bytes}
    (hi : i < tor.numPieces) (hnew : isDone w.piecesDone i = false) {out' : Output}
    (hwrite : w.out.write i buf (pieceSize tor i) = some out') :
    Tallied tor out { w with
      log := .handed i buf :: w.log
      out := out'
      piecesDone := markDone w.piecesDone i
      piecesLeft := w.piecesLeft - 1 } := by
  have hi' := UInt32.lt_iff_toNat_lt.mp hi
  have hreplay := replay_written h.out hwrite
  have hwritten : written tor out (.handed i buf :: w.log) = i :: written tor out w.log := by
    rw [written, hreplay]
    rfl
  have hlast := h.all.last
  have hnotin : i ∉ written tor out w.log := by
    intro hmem
    rw [(hlast.done i hi).mpr hmem] at hnew
    exact nomatch hnew
  refine ⟨⟨fun piecesDone piecesLeft earlier hsuffix => ?_, ?_⟩, ?_, by rw [hreplay]⟩
  · exact h.all.heads _ _ _ ((List.suffix_cons_iff.mp hsuffix).resolve_left nofun)
  · refine ⟨fun j hj => ?_, ?_, ?_, fun j hj => ?_⟩
    · dsimp only
      rw [hwritten, List.mem_cons]
      by_cases hji : j = i
      · rw [hji, isDone, markDone, test_mark_self (by rw [h.length]; omega)]
        exact ⟨fun _ => .inl rfl, fun _ => rfl⟩
      · rw [isDone, markDone, test_mark_ne fun heq => hji (UInt32.toNat_inj.mp heq.symm)]
        exact ⟨fun hdone => .inr ((hlast.done j hj).mp hdone),
          fun hmem => (hlast.done j hj).mpr (hmem.resolve_left hji)⟩
    · have hleft := hlast.left
      dsimp only
      rw [hwritten, List.length_cons, hleft]
      omega
    · dsimp only
      rw [hwritten, List.nodup_cons]
      exact ⟨hnotin, hlast.nodup⟩
    · dsimp only at hj
      rw [hwritten] at hj
      rcases List.mem_cons.mp hj with rfl | hj
      · exact hi
      · exact hlast.lt j hj
  · show (markDone w.piecesDone i).length = _
    rw [markDone, length_mark, h.length]

theorem downloadPiece_tallied {peer : PeerConnection} {i : UInt32} :
    Triple (Tallied tor out) (downloadPiece sha1 tor peer i) (fun _ => Tallied tor out)
      (AllTallied tor out) :=
  downloadPiece_keeps tallied_net (fun _ h => ⟨⟨h.all.heads, h.all.last⟩, h.length, h.out⟩)
    (fun _ h => h.all) fun _ _ h hnew _ hver => ⟨fun hwrite => h.undefined hwrite,
      fun _ hwrite => h.handed (lt_numPieces_of_verifyPiece hver) hnew hwrite⟩

end Steps

/-! ## The run -/

/-- The state in which the loop over the peers starts. -/
def loopStart (tor : TorrentT) (w : World) : World :=
  { w with
    piecesDone := List.replicate ((tor.numPieces + 7) / 8).toNat 0
    piecesLeft := tor.numPieces.toInt32.toInt }

theorem allTallied_start {tor : TorrentT} {out : Output} {w : World} (h : w.log = []) :
    AllTallied tor out (loopStart tor w) := by
  have hlog : (loopStart tor w).log = [] := h
  refine ⟨fun piecesDone piecesLeft earlier hsuffix => ?_, ⟨fun i _ => ?_, ?_, ?_, ?_⟩⟩
  · rw [hlog] at hsuffix
    exact absurd (List.suffix_nil.mp hsuffix) (List.cons_ne_nil _ _)
  · rw [loopStart, isDone, test_replicate_zero, ← loopStart, hlog]
    exact ⟨fun hdone => absurd hdone Bool.false_ne_true, fun hmem => absurd hmem List.not_mem_nil⟩
  · rw [hlog]
    exact (Int.sub_zero _).symm
  · rw [hlog]
    exact List.nodup_nil
  · rw [hlog]
    exact fun i hi => absurd hi List.not_mem_nil

/-- When the counter is not positive the loop over the peers ends at its first head. -/
theorem peerLoop_idle (sha1 : Bytes → Bytes) (tor : TorrentT) (myPeerId : Bytes)
    (peers : List PeerT) {w : World} (h : w.piecesLeft ≤ 0) :
    peerLoop sha1 tor myPeerId peers w =
      (.ok (), { w with log := .head w.piecesDone w.piecesLeft :: w.log }) := by
  cases peers with
  | nil => rfl
  | cons p peers =>
    show (if 0 < w.piecesLeft then _ else pure () : Prog Stop World Unit)
      { w with log := .head w.piecesDone w.piecesLeft :: w.log } = _
    rw [if_neg (by omega)]
    rfl

/-- In every run what is marked and counted at a loop head or at the end was written. -/
theorem downloadPieces_tallied (sha1 : Bytes → Bytes) (tor : TorrentT) (peers : List PeerT)
    (myPeerId : Bytes) (out : Output) :
    Triple (fun w => w.log = [] ∧ w.out = out) (downloadPieces sha1 tor peers myPeerId)
      (fun left w => left = w.piecesLeft ∧ AllTallied tor out w) (AllTallied tor out) := by
  refine downloadPieces_spec (P := fun w => ∃ w0, w = loopStart tor w0 ∧ w0.log = [] ∧
    w0.out = out) (fun w hw => ⟨w, rfl, hw⟩) ?_ (closeOutput_keeps fun _ _ h => ⟨h.heads, h.last⟩)
  rcases toInt_numPieces_cases tor with ⟨hsmall, _⟩ | ⟨_, hneg⟩
  · refine (allPeers_keep tallied_net (fun _ h => h.all) loopHead_tallied fun _ _ =>
      downloadPiece_tallied).conseq ?_ (fun _ _ h => h.all) (fun _ h => h)
    rintro _ ⟨w, rfl, hlog, hout⟩
    refine ⟨allTallied_start hlog, length_bitmap hsmall, ?_⟩
    show (replay tor out w.log).1 = some w.out
    rw [hlog, hout]
    rfl
  · -- So many pieces that the counter starts below zero: nothing is downloaded.
    rintro _ ⟨w, rfl, hlog, _⟩
    rw [peerLoop_idle sha1 tor myPeerId peers (w := loopStart tor w) (Int.le_of_lt hneg)]
    exact (allTallied_start hlog).head

theorem run_tallied (sha1 : Bytes → Bytes) (tor : TorrentT) (peers : List PeerT)
    (myPeerId : Bytes) (env : Surroundings) (out : Output) :
    AllTallied tor out (run sha1 tor peers myPeerId env out).2 ∧
      ∀ left, (run sha1 tor peers myPeerId env out).1 = .ok left →
        left = (run sha1 tor peers myPeerId env out).2.piecesLeft := by
  have hrun := downloadPieces_tallied sha1 tor peers myPeerId out (env.start out) ⟨rfl, rfl⟩
  unfold run
  generalize downloadPieces sha1 tor peers myPeerId (env.start out) = r at hrun ⊢
  obtain ⟨result, w⟩ := r
  cases result with
  | ok left => exact ⟨hrun.2, fun left' heq => (Except.ok.inj heq).symm.trans hrun.1⟩
  | error e => exact ⟨hrun, fun _ heq => nomatch heq⟩

/-- With the written pieces counted, what is reported is true exactly if every write was
complete. -/
theorem AllTallied.successReal_iff {tor : TorrentT} {out : Output} {r : Except Stop Int × World}
    (htally : AllTallied tor out r.2) (hleft : ∀ left, r.1 = .ok left → left = r.2.piecesLeft) :
    SuccessReal tor out r ↔ NoFailure tor out r.2.log := by
  refine ⟨fun h => htally.last.reported_iff.mp h.last, fun hno => ⟨?_, ?_, ?_⟩⟩
  · intro piecesDone piecesLeft earlier hsuffix
    refine (htally.heads _ _ _ hsuffix).reported_iff.mpr (hno.mono ?_)
    exact (List.suffix_cons _ _).trans hsuffix
  · exact htally.last.reported_iff.mpr hno
  · intro hzero i hi
    have hlast := htally.last
    rw [← hleft 0 hzero] at hlast
    exact .of_noFailure hno (hlast.all_written hi)

/-- In every run, whatever the output accepts and whatever the peers do, a reported success
means that the data were accepted exactly if no call that wrote data of a piece failed or
was short and the files have room for every byte of the pieces. -/
theorem success_real_iff (sha1 : Bytes → Bytes) (tor : TorrentT) (peers : List PeerT)
    (myPeerId : Bytes) (env : Surroundings) (out : Output) :
    SuccessReal tor out (run sha1 tor peers myPeerId env out) ↔
      NoFailure tor out (run sha1 tor peers myPeerId env out).2.log := by
  obtain ⟨htally, hleft⟩ := run_tallied sha1 tor peers myPeerId env out
  exact htally.successReal_iff hleft

/-- A storage of one file of one byte, on which the first `fseek` fails. -/
def brokenStorage : Storage where
  files := [⟨ascii "a", 0, 1, ⟨[], [none]⟩⟩]
  totalLength := 1
  pieceLength := 1
  extractDir := none

/-- The run returns 0, and no byte is in the file. -/
theorem success_without_data :
    (run Sha1.sha1 (byteTorrent [7]) [⟨0, 0⟩] [] ⟨none, [some oneBytePeer], fun _ _ => 0⟩
      (.storage brokenStorage)).1 = .ok 0 ∧
    ¬ SuccessReal (byteTorrent [7]) (.storage brokenStorage)
      (run Sha1.sha1 (byteTorrent [7]) [⟨0, 0⟩] [] ⟨none, [some oneBytePeer], fun _ _ => 0⟩
        (.storage brokenStorage)) := by
  have hzero : (run Sha1.sha1 (byteTorrent [7]) [⟨0, 0⟩] [] ⟨none, [some oneBytePeer],
      fun _ _ => 0⟩ (.storage brokenStorage)).1 = .ok 0 := by decide +kernel
  refine ⟨hzero, fun h => ?_⟩
  have hcalls : (replay (byteTorrent [7]) (.storage brokenStorage)
      (run Sha1.sha1 (byteTorrent [7]) [⟨0, 0⟩] [] ⟨none, [some oneBytePeer], fun _ _ => 0⟩
        (.storage brokenStorage)).2.log).2 = [(0, [⟨0, 1, 0⟩])] := by decide +kernel
  obtain ⟨calls, hmem, htaken⟩ := h.result hzero 0 (by decide)
  rw [hcalls] at hmem
  cases List.mem_singleton.mp hmem
  have htakes := (htaken 0 (by decide)).2 _ List.mem_cons_self (by decide)
  exact absurd htakes (by decide)

end CourseWork.Torrent
