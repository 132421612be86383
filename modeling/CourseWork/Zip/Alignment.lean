import CourseWork.Zip.Scan
import Mathlib.Logic.Relation

/-!
# Records across reads

The records that `extract_files` reports against all records of the file. A read that is cut
off at a record rolls back, but not always to the start of that record: records are lost if it
does not go back that far, and reported again if it goes back further.
-/

namespace CourseWork.Zip
open CLib

/-! ## One read -/

section Read

variable (file : Input) (st : ReadState)

/-- Where the file is read on after a cut. -/
def restart (s : Nat) : Nat :=
  if rollBack file st s < st.bytes file then st.stop file - rollBack file st s else st.stop file

/-- The outcome of the body of the loop over the reads. -/
inductive ReadResult : Except Stop ReadState → Prop
  | complete (h : ∀ s, ¬Cut file st.pos (st.stop file) s) :
      ReadResult (.ok ⟨if 3 < st.bytes file then st.stop file - 3 else st.stop file, st.read file,
        windowAfter file st.pos st.window (st.bytes file),
        st.records ++ recordsIn file st.pos (st.stop file - 3) (st.stop file)⟩)
  | cut {s : Nat} (h : Cut file st.pos (st.stop file) s) (hread : ¬Overrun file st s) :
      ReadResult (.ok ⟨restart file st s, st.read file, zipSignature,
        st.records ++ recordsIn file st.pos s (st.stop file)⟩)
  | undefined {s : Nat} (h : Cut file st.pos (st.stop file) s) (hread : Overrun file st s) :
      ReadResult (.error .undefined)

end Read

section Read

variable {file : Input} {st st' : ReadState}

theorem readOnce_spec (hquiet : Quiet file st.pos (st.bytes file) st.window) :
    ReadResult file st (readOnce file st) := by
  have hscan := scanLoop_spec hquiet (st.bytes file) (i := 0) (Nat.zero_add _)
    fun r hr hr' => absurd hr' (by omega)
  have hnil : recordsIn file st.pos (st.pos + (0 - 3)) (st.stop file) = [] :=
    recordsIn_eq_nil fun s hs hs' => absurd hs' (by omega)
  rw [hnil, List.append_nil] at hscan
  change ScanResult file st (scanLoop (st.read file) (st.bytes file) st.pos (st.bytes file) 0
    st.window st.records) at hscan
  unfold readOnce
  dsimp only
  generalize scanLoop (st.read file) (st.bytes file) st.pos (st.bytes file) 0 st.window
    st.records = r at hscan ⊢
  cases hscan with
  | complete h => exact .complete h
  | cut h hread => exact .cut h hread
  | undefined h hread => exact .undefined h hread

/-- A read gets further, but not behind the end of the buffer. -/
theorem pos_lt_of_readOnce (hquiet : Quiet file st.pos (st.bytes file) st.window)
    (hbytes : 0 < st.bytes file) (h : readOnce file st = .ok st') :
    st.pos < st'.pos ∧ st'.pos ≤ st.stop file := by
  have hstop : st.stop file = st.pos + st.bytes file := rfl
  have hresult := readOnce_spec hquiet
  rw [h] at hresult
  cases hresult with
  | complete _ =>
    dsimp only
    split
    · omega
    · omega
  | cut _ _ =>
    dsimp only [restart]
    split
    · omega
    · omega

/-- The buffer of a later read ends later. -/
theorem stop_le_stop (h : st.pos ≤ st'.pos) (h' : st'.pos ≤ file.size) :
    st.stop file ≤ st'.stop file := by
  unfold ReadState.stop ReadState.bytes
  omega

theorem stop_le_size (h : st.pos ≤ file.size) : st.stop file ≤ file.size := by
  unfold ReadState.stop ReadState.bytes
  omega

/-- The window stays quiet. -/
theorem quiet_of_readOnce (hquiet : Quiet file st.pos (st.bytes file) st.window)
    (h : readOnce file st = .ok st') : Quiet file st'.pos (st'.bytes file) st'.window := by
  have hresult := readOnce_spec hquiet
  rw [h] at hresult
  cases hresult with
  | cut _ _ => exact quiet_of_signature (.inr rfl)
  | complete _ =>
    rcases Nat.lt_or_ge 3 (st.bytes file) with hlt | hge
    · -- The last three bytes are read again.
      obtain ⟨m, hm⟩ := Nat.exists_eq_add_of_le' hlt.le
      have hpos : (if 3 < st.bytes file then st.stop file - 3 else st.stop file) = st.pos + m := by
        rw [if_pos hlt, ReadState.stop]
        omega
      dsimp only
      rw [hpos, hm]
      exact quiet_of_overlap file st.pos st.window _ m
    · -- Such a short read is the last one.
      intro n _ hn
      refine absurd hn ?_
      rw [ReadState.bytes]
      dsimp only
      rw [if_neg (Nat.not_lt.mpr hge)]
      unfold ReadState.stop ReadState.bytes bufferSize at *
      omega

end Read

/-- The rounds suffice: each read gets further. -/
theorem readLoop_finishes {file : Input} : ∀ {rounds : Nat} {st : ReadState},
    st.pos ≤ file.size → file.size - st.pos < rounds →
    Quiet file st.pos (st.bytes file) st.window → readLoop file rounds st ≠ .error .unfinished
  | rounds + 1, st, hpos, hrounds, hquiet, h => by
    rw [readLoop] at h
    split at h
    · next hbytes =>
      have hresult := readOnce_spec hquiet
      cases hread : readOnce file st with
      | error e =>
        rw [hread] at h hresult
        cases hresult
        cases h
      | ok st' =>
        rw [hread] at h
        obtain ⟨hlt, hle⟩ := pos_lt_of_readOnce hquiet hbytes hread
        have hsize := Nat.le_trans hle (stop_le_size hpos)
        exact readLoop_finishes hsize (by omega) (quiet_of_readOnce hquiet hread) h
    · cases h

/-- `extract_files` ends, unless it reads behind the buffer. -/
theorem extractFiles_finishes (file : Input) (garbage : Nat → UInt8) :
    extractFiles file garbage ≠ .error .unfinished := by
  intro h
  rw [extractFiles] at h
  cases hrun : readLoop file (file.size + 1) ⟨0, garbage, 0, []⟩ with
  | error e =>
    rw [hrun] at h
    cases h
    exact readLoop_finishes (Nat.zero_le _) (Nat.lt_succ_self _) (quiet_of_signature (.inl rfl)) hrun
  | ok records =>
    rw [hrun] at h
    cases h

/-! ## All records -/

/-- All records of the file: every signature whose header and name lie in it. -/
def allRecords (file : Input) : List Record := recordsIn file 0 file.size file.size

/-- A read loses nothing and reports nothing that will be reported again: if it is cut off at
`s`, the length of the name was read from the buffer, no record of the file starts at or
behind `s` and before the place where the file is read on, and no signature starts from there
on and before `s`. -/
def Clean (file : Input) (st : ReadState) : Prop :=
  ∀ s, Cut file st.pos (st.stop file) s →
    ¬Overrun file st s ∧
    (∀ r, s ≤ r → r < restart file st s → Signature file r → file.size < recordEnd file r) ∧
    ∀ r, restart file st s ≤ r → r < s → ¬Signature file r

/-- The states before the reads that follow a state. -/
def Reads (file : Input) : ReadState → ReadState → Prop :=
  Relation.ReflTransGen fun st st' => 0 < st.bytes file ∧ readOnce file st = .ok st'

section Runs

variable {file : Input} {st st' : ReadState}

theorem lt_restart (hbytes : 0 < st.bytes file) (s : Nat) : st.pos < restart file st s := by
  unfold restart ReadState.stop
  split
  · omega
  · omega

/-- A clean read reports all records up to the place where the file is read on. -/
theorem records_of_clean (hclean : Clean file st) (hpos : st.pos ≤ file.size)
    (hquiet : Quiet file st.pos (st.bytes file) st.window)
    (hrecords : st.records = recordsIn file 0 st.pos file.size) :
    ∃ st', readOnce file st = .ok st' ∧ st'.records = recordsIn file 0 st'.pos file.size := by
  have hsize := stop_le_size hpos
  have hresult := readOnce_spec hquiet
  generalize readOnce file st = r at hresult
  cases hresult with
  | undefined h hread => exact absurd hread (hclean _ h).1
  | complete hno =>
    refine ⟨_, rfl, ?_⟩
    dsimp only
    split
    · next hlong =>
      rw [recordsIn_congr hsize fun r hr hr' hsig =>
        recordEnd_le_of_no_cut hno r hr (by omega) hsig, hrecords]
      exact recordsIn_append (Nat.zero_le _) (by unfold ReadState.stop; omega)
    · next hshort =>
      -- At most three bytes are left, and no record fits them.
      have hstop : st.stop file = file.size := by
        unfold ReadState.stop ReadState.bytes bufferSize at *
        omega
      have hend : st.pos + 3 ≥ file.size := by
        unfold ReadState.stop at hstop
        omega
      rw [recordsIn_eq_nil fun r hr hr' => by omega, List.append_nil, hrecords, hstop,
        ← recordsIn_append (Nat.zero_le _) hpos]
      refine (List.append_nil _).symm.trans (congrArg _ (recordsIn_eq_nil fun r hr _ _ => ?_).symm)
      unfold recordEnd
      omega
  | @cut s h hread =>
    refine ⟨_, rfl, ?_⟩
    obtain ⟨_, hlost, htwice⟩ := hclean s h
    have hsignature := h.signature_le
    have hstart := h.start_le
    have hrestart : st.pos ≤ restart file st s := by
      refine Nat.le_of_lt (lt_restart ?_ s)
      unfold ReadState.stop at hsignature
      omega
    have hpart : recordsIn file st.pos s (st.stop file) =
        recordsIn file st.pos (restart file st s) file.size := by
      rcases Nat.le_total s (restart file st s) with hle | hge
      · rw [recordsIn_congr hsize h.first, ← recordsIn_append hstart hle, recordsIn_eq_nil hlost,
          List.append_nil]
      · have hnone : recordsIn file (restart file st s) s (st.stop file) = [] :=
          recordsIn_eq_nil fun r hr hr' hsig => absurd hsig (htwice r hr hr')
        rw [← recordsIn_append hrestart hge, hnone, List.append_nil]
        exact recordsIn_congr hsize fun r hr hr' => h.first r hr (by omega)
    dsimp only
    rw [hrecords, hpart]
    exact recordsIn_append (Nat.zero_le _) hrestart

/-- A read reports the records up to some place. All records before it end in the buffer, and
it is behind every place before which they do. -/
theorem records_of_readOnce (hquiet : Quiet file st.pos (st.bytes file) st.window)
    (h : readOnce file st = .ok st') :
    ∃ hi, st'.records = st.records ++ recordsIn file st.pos hi (st.stop file) ∧
      ∀ s, s + 4 ≤ st.stop file →
        (∀ r, st.pos ≤ r → r ≤ s → Signature file r → recordEnd file r ≤ st.stop file) → s < hi := by
  have hresult := readOnce_spec hquiet
  rw [h] at hresult
  cases hresult with
  | complete _ => exact ⟨_, rfl, fun s hs _ => by omega⟩
  | @cut c hcut _ =>
    refine ⟨c, rfl, fun s _ hends => ?_⟩
    by_contra hle
    have hend := hends c hcut.start_le (Nat.not_lt.mp hle) hcut.signature
    exact absurd hcut.lt_end (Nat.not_lt.mpr hend)

/-- What later reads report starts where the file is read on, or behind that. -/
theorem records_of_readLoop : ∀ {rounds : Nat} {st : ReadState} {records : List Record},
    Quiet file st.pos (st.bytes file) st.window →
    readLoop file rounds st = .ok records →
    ∃ later, records = st.records ++ later ∧ ∀ r ∈ later, st.pos ≤ r.start
  | rounds + 1, st, records, hquiet, h => by
    rw [readLoop] at h
    split at h
    · next hbytes =>
      cases hread : readOnce file st with
      | error e =>
        rw [hread] at h
        cases h
      | ok st' =>
        rw [hread] at h
        have hpos := (pos_lt_of_readOnce hquiet hbytes hread).1
        obtain ⟨later, hrecords, hlater⟩ :=
          records_of_readLoop (quiet_of_readOnce hquiet hread) h
        obtain ⟨hi, hfirst, _⟩ := records_of_readOnce hquiet hread
        refine ⟨recordsIn file st.pos hi (st.stop file) ++ later, ?_, fun r hr => ?_⟩
        · rw [hrecords, hfirst, List.append_assoc]
        · rcases List.mem_append.mp hr with hr | hr
          · obtain ⟨s, hs, _, _, _, rfl⟩ := mem_recordsIn.mp hr
            exact hs
          · exact Nat.le_trans (Nat.le_of_lt hpos) (hlater r hr)
    · cases h
      exact ⟨[], (List.append_nil _).symm, fun r hr => absurd hr List.not_mem_nil⟩

/-- A record that is lost is not reported later. -/
theorem not_all_of_lost {rounds s q : Nat} {records : List Record}
    (h : Cut file st.pos (st.stop file) s)
    (hq : s ≤ q) (hq' : q < st'.pos) (hsig : Signature file q) (hend : recordEnd file q ≤ file.size)
    (hrecords : st.records = recordsIn file 0 st.pos file.size)
    (hread : st'.records = st.records ++ recordsIn file st.pos s (st.stop file))
    (hquiet : Quiet file st'.pos (st'.bytes file) st'.window)
    (hrun : readLoop file rounds st' = .ok records) : records ≠ allRecords file := by
  obtain ⟨later, rfl, hlater⟩ := records_of_readLoop hquiet hrun
  intro hall
  have hmem : recordAt file q ∈ st'.records ++ later := by
    rw [hall]
    refine mem_recordsIn.mpr ⟨q, Nat.zero_le q, ?_, hsig, hend, rfl⟩
    unfold recordEnd at hend
    omega
  have hstart := h.start_le
  rw [hread, hrecords, List.append_assoc] at hmem
  rcases List.mem_append.mp hmem with hmem | hmem
  · obtain ⟨r, _, hr, _, _, heq⟩ := mem_recordsIn.mp hmem
    have heq : r = q := congrArg Record.start heq
    omega
  · rcases List.mem_append.mp hmem with hmem | hmem
    · obtain ⟨r, _, hr, _, _, heq⟩ := mem_recordsIn.mp hmem
      have heq : r = q := congrArg Record.start heq
      omega
    · have hle : st'.pos ≤ q := hlater _ hmem
      omega

/-- A record that is read again is reported again. -/
theorem not_all_of_twice {rounds s q : Nat} {records : List Record}
    (h : Cut file st.pos (st.stop file) s) (hpos : st.pos ≤ st'.pos) (hsize : st'.pos ≤ file.size)
    (hq : st'.pos ≤ q) (hq' : q < s) (hsig : Signature file q)
    (hread : st'.records = st.records ++ recordsIn file st.pos s (st.stop file))
    (hquiet : Quiet file st'.pos (st'.bytes file) st'.window)
    (hrun : readLoop file rounds st' = .ok records) : records ≠ allRecords file := by
  have hstop := stop_le_stop hpos hsize
  have hends : ∀ r, st.pos ≤ r → r ≤ q → Signature file r → recordEnd file r ≤ st.stop file :=
    fun r hr hr' => h.first r hr (by omega)
  have hend := hends q (by omega) (Nat.le_refl q) hsig
  have hsignature := h.signature_le
  cases rounds with
  | zero => cases hrun
  | succ rounds =>
    have hbytes : 0 < st'.bytes file := by
      unfold ReadState.stop at hstop hsignature
      omega
    rw [readLoop, if_pos hbytes] at hrun
    cases hread' : readOnce file st' with
    | error e =>
      rw [hread'] at hrun
      cases hrun
    | ok st'' =>
      rw [hread'] at hrun
      obtain ⟨later, rfl, _⟩ := records_of_readLoop (quiet_of_readOnce hquiet hread') hrun
      obtain ⟨hi, hsecond, hbehind⟩ := records_of_readOnce hquiet hread'
      have hlt : q < hi := hbehind q (by omega) fun r hr hr' hsig' =>
        Nat.le_trans (hends r (by omega) hr' hsig') hstop
      intro hall
      have hnodup : (st''.records ++ later).Nodup := hall ▸ nodup_recordsIn
      rw [hsecond, hread] at hnodup
      have hdisjoint := (List.nodup_append.mp (List.nodup_append.mp hnodup).1).2.2
      refine hdisjoint (recordAt file q) (List.mem_append_right _ ?_) (recordAt file q) ?_ rfl
      · exact mem_recordsIn.mpr ⟨q, by omega, hq', hsig, hend, rfl⟩
      · exact mem_recordsIn.mpr ⟨q, hq, hlt, hsig, Nat.le_trans hend hstop, rfl⟩

/-- A read that is not clean loses a record or reports one twice. -/
theorem not_all_of_not_clean {rounds : Nat} {records : List Record} (hclean : ¬Clean file st)
    (hpos : st.pos ≤ file.size) (hquiet : Quiet file st.pos (st.bytes file) st.window)
    (hrecords : st.records = recordsIn file 0 st.pos file.size) (hbytes : 0 < st.bytes file)
    (hrun : readLoop file (rounds + 1) st = .ok records) : records ≠ allRecords file := by
  rw [readLoop, if_pos hbytes] at hrun
  cases hread : readOnce file st with
  | error e =>
    rw [hread] at hrun
    cases hrun
  | ok st' =>
    rw [hread] at hrun
    have hresult := readOnce_spec hquiet
    have hquiet' := quiet_of_readOnce hquiet hread
    have hnext := pos_lt_of_readOnce hquiet hbytes hread
    rw [hread] at hresult
    cases hresult with
    | complete hno => exact absurd (fun s hs => absurd hs (hno s)) hclean
    | @cut s h hover =>
      by_cases hlost : ∃ q, s ≤ q ∧ q < restart file st s ∧ Signature file q ∧
          recordEnd file q ≤ file.size
      · obtain ⟨q, hq, hq', hsig, hend⟩ := hlost
        exact not_all_of_lost h hq hq' hsig hend hrecords rfl hquiet' hrun
      · by_cases htwice : ∃ q, restart file st s ≤ q ∧ q < s ∧ Signature file q
        · obtain ⟨q, hq, hq', hsig⟩ := htwice
          exact not_all_of_twice h hnext.1.le (Nat.le_trans hnext.2 (stop_le_size hpos)) hq hq' hsig
            rfl hquiet' hrun
        · refine absurd (fun c hc => ?_) hclean
          obtain rfl := h.unique hc
          refine ⟨hover, fun r hr hr' hsig => ?_, fun r hr hr' hsig => htwice ⟨r, hr, hr', hsig⟩⟩
          exact Nat.not_le.mp fun hend => hlost ⟨r, hr, hr', hsig, hend⟩

/-- The loop over the reads reports all records exactly if all reads are clean. -/
theorem readLoop_iff : ∀ {rounds : Nat} {st : ReadState}, st.pos ≤ file.size →
    file.size - st.pos < rounds → Quiet file st.pos (st.bytes file) st.window →
    st.records = recordsIn file 0 st.pos file.size →
    (readLoop file rounds st = .ok (allRecords file) ↔ ∀ st', Reads file st st' → Clean file st')
  | rounds + 1, st, hpos, hrounds, hquiet, hrecords => by
    rcases Nat.eq_zero_or_pos (st.bytes file) with hzero | hbytes
    · -- The file is read to its end.
      have hend : st.pos = file.size := by
        unfold ReadState.bytes bufferSize at hzero
        omega
      rw [readLoop, if_neg (by omega), hrecords, hend]
      refine iff_of_true rfl fun st' hreads => ?_
      rcases Relation.ReflTransGen.cases_head hreads with rfl | ⟨_, ⟨hbytes, _⟩, _⟩
      · intro s hs
        have hstart := hs.start_le
        have hsignature := hs.signature_le
        unfold ReadState.stop at hsignature
        omega
      · omega
    · by_cases hclean : Clean file st
      · obtain ⟨st', hread, hrecords'⟩ := records_of_clean hclean hpos hquiet hrecords
        obtain ⟨hlt, hle⟩ := pos_lt_of_readOnce hquiet hbytes hread
        have hsize := Nat.le_trans hle (stop_le_size hpos)
        have hrest : readLoop file rounds st' = .ok (allRecords file) ↔
            ∀ st'', Reads file st' st'' → Clean file st'' :=
          readLoop_iff hsize (by omega) (quiet_of_readOnce hquiet hread) hrecords'
        rw [readLoop, if_pos hbytes, hread]
        refine hrest.trans ⟨fun hall st'' hreads => ?_, fun hall st'' hreads => ?_⟩
        · rcases Relation.ReflTransGen.cases_head hreads with rfl | ⟨st1, ⟨_, hread1⟩, hreads⟩
          · exact hclean
          · obtain rfl := Except.ok.inj (hread.symm.trans hread1)
            exact hall st'' hreads
        · exact hall st'' (hreads.head ⟨hbytes, hread⟩)
      · refine iff_of_false (fun hrun => ?_) fun hall => hclean (hall st Relation.ReflTransGen.refl)
        exact not_all_of_not_clean hclean hpos hquiet hrecords hbytes hrun rfl

end Runs

/-- The state before the first read. -/
def firstRead (garbage : Nat → UInt8) : ReadState := ⟨0, garbage, 0, []⟩

theorem readLoop_first_iff (file : Input) (garbage : Nat → UInt8) :
    readLoop file (file.size + 1) (firstRead garbage) = .ok (allRecords file) ↔
      ∀ st, Reads file (firstRead garbage) st → Clean file st :=
  readLoop_iff (Nat.zero_le _) (Nat.lt_succ_self _) (quiet_of_signature (.inl rfl))
    (recordsIn_eq_nil fun s _ hs => absurd hs (Nat.not_lt_zero s)).symm

theorem readLoop_of_extractFiles {file : Input} {garbage : Nat → UInt8} {records : List Record}
    (h : extractFiles file garbage = .ok (report records)) :
    readLoop file (file.size + 1) (firstRead garbage) = .ok records := by
  change (readLoop file (file.size + 1) (firstRead garbage)).map report = _ at h
  cases hrun : readLoop file (file.size + 1) (firstRead garbage) with
  | error e =>
    rw [hrun] at h
    cases h
  | ok records' =>
    rw [hrun] at h
    exact congrArg Except.ok (congrArg Extraction.records (Except.ok.inj h))

/-- `extract_files` reports exactly the records of the file, in order, with their number,
wherever they lie in the buffers, if and only if every read is clean. -/
theorem extract_files_exact_iff (file : Input) (garbage : Nat → UInt8) :
    extractFiles file garbage = .ok (report (allRecords file)) ↔
      ∀ st, Reads file (firstRead garbage) st → Clean file st := by
  rw [← readLoop_first_iff]
  exact ⟨readLoop_of_extractFiles, fun h => congrArg (Except.map report) h⟩

/-- A file with one record, named `a`, whose signature starts 25 bytes before the end of the
first buffer. -/
def straddlingFile : Input where
  size := 8198
  byte k := if k < 8167 then 0
    else ([0x50, 0x4b, 3, 4] ++ List.replicate 22 0 ++ [1, 0, 0, 0, 97] : Bytes).getD (k - 8167) 0

/-- The roll back by 24 bytes goes behind the start of the signature, and the record is
lost. -/
theorem extract_files_loses : ⟨8167, [97]⟩ ∈ allRecords straddlingFile ∧
    extractFiles straddlingFile (fun _ => 0) ≠ .ok (report (allRecords straddlingFile)) := by
  have hsig : Signature straddlingFile 8167 := by decide
  refine ⟨mem_recordsIn.mpr ⟨8167, by decide, by decide, hsig, by decide, by decide⟩, ?_⟩
  have hcut : Cut straddlingFile 0 8192 8167 := by
    refine ⟨by decide, by decide, hsig, by decide, fun r _ hr hsig => ?_⟩
    have hzero : straddlingFile.byte r = 0 := if_pos hr
    exact absurd (hzero.symm.trans hsig.1) (by decide)
  have hclean : ¬Clean straddlingFile (firstRead fun _ => 0) := by
    intro hclean
    have hlost := (hclean 8167 hcut).2.1 8167 (Nat.le_refl _) (by decide) hsig
    exact absurd hlost (by decide)
  exact fun hrun => hclean ((readLoop_first_iff straddlingFile _).mp
    (readLoop_of_extractFiles hrun) _ Relation.ReflTransGen.refl)

end CourseWork.Zip
