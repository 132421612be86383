import CourseWork.Zip.Names
import Mathlib.Logic.Function.Iterate

/-!
# Accesses to the buffer, and the end of the scan

Where `extract_files` reads its buffer, against the bytes that the last read delivered, and
that every read gets further in the file, whatever lies behind the buffer.
-/

namespace CourseWork.Zip
open CLib

/-! ## The scan with its accesses -/

/-- What the loop over the buffer does: the indices at which it reads the buffer, in order, and
what it leaves. -/
structure Scan where
  accesses : List Nat
  offset : Nat
  window : UInt32
  records : List Record

/-- A scan behind other accesses. -/
def Scan.after (accesses : List Nat) (s : Scan) : Scan :=
  { s with accesses := accesses ++ s.accesses }

/-- The loop over the buffer, as `scanLoop`. What lies behind the buffer is read as if it
belonged to it. -/
def scan (buffer : Nat → UInt8) (bytes pos : Nat) : Nat → Nat → UInt32 → List Record → Scan
  | 0, _, window, records => ⟨[], 3, window, records⟩
  | n + 1, i, window, records =>
    let window := moveWindow window (buffer i)
    if window = zipSignature then
      if i + 24 > bytes then ⟨[i], 24, window, records⟩
      else
        let len := (buffer (i + 23) ||| buffer (i + 24)).toNat
        if i + 27 + len > bytes then
          ⟨[i, i + 23, i + 24], i + 27 + len - bytes, window, records⟩
        else
          let fName := (List.range len).map fun n => buffer (i + 27 + n)
          (scan buffer bytes pos n (i + 1) window (records ++ [⟨pos + i - 3, fName⟩])).after
            ([i, i + 23, i + 24] ++ (List.range len).map (i + 27 + ·))
    else (scan buffer bytes pos n (i + 1) window records).after [i]

/-- All accesses are to the first `bytes` bytes. -/
def Scan.Within (bytes : Nat) (s : Scan) : Prop := ∀ k ∈ s.accesses, k < bytes

instance (bytes : Nat) (s : Scan) : Decidable (s.Within bytes) :=
  inferInstanceAs (Decidable (∀ k ∈ s.accesses, k < bytes))

/-- What a scan returns where every access lies in the buffer. -/
def Scan.result (s : Scan) : Except Stop (Nat × UInt32 × List Record) :=
  if s.Within bufferSize then .ok (s.offset, s.window, s.records) else .error .undefined

section Scans

variable {buffer : Nat → UInt8} {bytes pos : Nat}

theorem within_after {accesses : List Nat} {s : Scan} :
    (s.after accesses).Within bytes ↔ (∀ k ∈ accesses, k < bytes) ∧ s.Within bytes :=
  List.forall_mem_append

theorem result_of_within {s : Scan} (h : s.Within bufferSize) :
    s.result = .ok (s.offset, s.window, s.records) := if_pos h

theorem result_of_not {s : Scan} (h : ¬s.Within bufferSize) : s.result = .error .undefined :=
  if_neg h

theorem result_of_mem {s : Scan} {k : Nat} (h : k ∈ s.accesses) (hk : ¬k < bufferSize) :
    s.result = .error .undefined := result_of_not fun hall => hk (hall k h)

theorem result_after {accesses : List Nat} (h : ∀ k ∈ accesses, k < bufferSize) (s : Scan) :
    (s.after accesses).result = s.result :=
  if_congr (within_after.trans (and_iff_right h)) rfl rfl

theorem bufferAt_eq_ok {k : Nat} (h : k < bufferSize) : bufferAt buffer k = .ok (buffer k) :=
  if_pos h

theorem bufferAt_eq_error {k : Nat} (h : ¬k < bufferSize) :
    bufferAt buffer k = .error .undefined := if_neg h

theorem mapM_error {ε α β : Type} {e : ε} {f : α → Except ε β} :
    ∀ {l : List α}, (∀ a ∈ l, f a = .error e ∨ ∃ b, f a = .ok b) → (∃ a ∈ l, f a = .error e) →
      l.mapM f = .error e
  | [], _, h => by
    obtain ⟨_, ha, _⟩ := h
    cases ha
  | a :: l, hall, h => by
    rw [List.mapM_cons]
    rcases hall a List.mem_cons_self with ha | ⟨b, ha⟩
    · rw [ha]
      rfl
    · obtain ⟨a', ha', herror⟩ := h
      have hmem : a' ∈ l := List.mem_of_ne_of_mem
        (fun heq => by rw [heq, ha] at herror; cases herror) ha'
      rw [ha, mapM_error (fun c hc => hall c (List.mem_cons_of_mem _ hc)) ⟨a', hmem, herror⟩]
      rfl

/-- The copy of the name is defined where all of its accesses lie in the buffer. -/
theorem copyName_eq (k : Nat) {len : Nat} (hlen : len < fNameSize) :
    copyName buffer k len =
      if ∀ a ∈ (List.range len).map (k + ·), a < bufferSize then
        .ok ((List.range len).map fun n => buffer (k + n))
      else .error .undefined := by
  rw [copyName, if_pos hlen]
  split
  · next hall =>
    exact mapM_ok fun n hn => bufferAt_eq_ok (hall _ (List.mem_map_of_mem hn))
  · next hnot =>
    refine mapM_error (fun n _ => ?_) ?_
    · by_cases hn : k + n < bufferSize
      · exact .inr ⟨_, bufferAt_eq_ok hn⟩
      · exact .inl (bufferAt_eq_error hn)
    · simp only [List.forall_mem_map, not_forall] at hnot
      obtain ⟨n, hn, hlast⟩ := hnot
      exact ⟨n, hn, bufferAt_eq_error hlast⟩

section Round

variable {n i : Nat} {window : UInt32} {records : List Record}

/-- A round without a signature reads one byte. -/
theorem scan_skip (h : moveWindow window (buffer i) ≠ zipSignature) :
    scan buffer bytes pos (n + 1) i window records =
      (scan buffer bytes pos n (i + 1) (moveWindow window (buffer i)) records).after [i] :=
  if_neg h

/-- The length of the name, as the code joins its bytes. -/
def lenAt (buffer : Nat → UInt8) (i : Nat) : Nat := (buffer (i + 23) ||| buffer (i + 24)).toNat

/-- A round with a signature reads the length, unless that is not in the buffer, and then the
name. -/
theorem scan_found (h : moveWindow window (buffer i) = zipSignature) :
    scan buffer bytes pos (n + 1) i window records =
      if i + 24 > bytes then ⟨[i], 24, zipSignature, records⟩
      else if i + 27 + lenAt buffer i > bytes then
        ⟨[i, i + 23, i + 24], i + 27 + lenAt buffer i - bytes, zipSignature, records⟩
      else
        (scan buffer bytes pos n (i + 1) zipSignature (records ++
          [⟨pos + i - 3, (List.range (lenAt buffer i)).map fun n => buffer (i + 27 + n)⟩])).after
            ([i, i + 23, i + 24] ++ (List.range (lenAt buffer i)).map (i + 27 + ·)) := by
  rw [scan]
  simp only [h]
  rfl

end Round

/-- A round with a signature reads the byte of the window first. -/
theorem mem_scan_found (bytes pos n : Nat) {i : Nat} {window : UInt32} (records : List Record)
    (h : moveWindow window (buffer i) = zipSignature) :
    i ∈ (scan buffer bytes pos (n + 1) i window records).accesses ∧
      (¬i + 24 > bytes → i + 23 ∈ (scan buffer bytes pos (n + 1) i window records).accesses ∧
        i + 24 ∈ (scan buffer bytes pos (n + 1) i window records).accesses) := by
  rw [scan_found h]
  split
  · next hheader => exact ⟨List.mem_cons_self, fun hnot => absurd hheader hnot⟩
  · split
    · exact ⟨by simp, fun _ => ⟨by simp, by simp⟩⟩
    · exact ⟨by simp [Scan.after], fun _ => ⟨by simp [Scan.after], by simp [Scan.after]⟩⟩

/-- The three bytes of a round with a signature. -/
theorem forall_mem_head {i stop : Nat} (h : i + 24 < stop) :
    ∀ k ∈ [i, i + 23, i + 24], k < stop := by
  intro k hk
  simp only [List.mem_cons, List.not_mem_nil, or_false] at hk
  omega

/-- A byte that the scan accesses is read, or both are undefined. -/
theorem bufferAt_bind {k : Nat} {s : Scan} {f : UInt8 → Except Stop (Nat × UInt32 × List Record)}
    (hmem : k ∈ s.accesses) (h : k < bufferSize → f (buffer k) = s.result) :
    (bufferAt buffer k >>= f) = s.result := by
  by_cases hk : k < bufferSize
  · rw [bufferAt_eq_ok hk]
    exact h hk
  · rw [bufferAt_eq_error hk]
    exact (result_of_mem hmem hk).symm

/-- The name is copied and the scan goes on, or both are undefined. -/
theorem copyName_bind {i len : Nat} {s : Scan}
    {f : Bytes → Except Stop (Nat × UInt32 × List Record)} (hi : i + 24 < bufferSize)
    (hlen : len < fNameSize)
    (h : f ((List.range len).map fun n => buffer (i + 27 + n)) = s.result) :
    (copyName buffer (i + 27) len >>= f) =
      (s.after ([i, i + 23, i + 24] ++ (List.range len).map (i + 27 + ·))).result := by
  rw [copyName_eq (i + 27) hlen]
  by_cases hcopy : ∀ a ∈ (List.range len).map (i + 27 + ·), a < bufferSize
  · rw [if_pos hcopy, result_after (List.forall_mem_append.mpr ⟨forall_mem_head hi, hcopy⟩)]
    exact h
  · rw [if_neg hcopy]
    refine (result_of_not fun hall => hcopy fun k hk => ?_).symm
    exact hall k (List.mem_append_left _ (List.mem_append_right _ hk))

/-- `scanLoop` is the scan, and undefined where an access lies behind the buffer. -/
theorem scanLoop_eq_result : ∀ (n i : Nat) (window : UInt32) (records : List Record),
    scanLoop buffer bytes pos n i window records =
      (scan buffer bytes pos n i window records).result
  | 0, _, _, _ => (if_pos (List.forall_mem_nil _)).symm
  | n + 1, i, window, records => by
    unfold scanLoop
    by_cases hwindow : moveWindow window (buffer i) = zipSignature
    · obtain ⟨hmem, hlength⟩ := mem_scan_found bytes pos n records hwindow
      refine bufferAt_bind hmem fun hi => ?_
      rw [if_pos hwindow]
      by_cases hheader : i + 24 > bytes
      · rw [scan_found hwindow, if_pos hheader, if_pos hheader, hwindow]
        have hwithin : Scan.Within bufferSize ⟨[i], 24, zipSignature, records⟩ :=
          List.forall_mem_singleton.mpr hi
        exact (result_of_within hwithin).symm
      · rw [if_neg hheader]
        obtain ⟨hmem23, hmem24⟩ := hlength hheader
        refine bufferAt_bind hmem23 fun _ => bufferAt_bind hmem24 fun h24 => ?_
        rw [scan_found hwindow, if_neg hheader, hwindow]
        by_cases hname : i + 27 + lenAt buffer i > bytes
        · rw [if_pos hname]
          exact (if_pos hname).trans (if_pos (forall_mem_head h24)).symm
        · rw [if_neg hname]
          refine (if_neg hname).trans (copyName_bind h24 (UInt8.toNat_lt _) ?_)
          exact scanLoop_eq_result n (i + 1) _ _
    · rw [scan_skip hwindow]
      refine bufferAt_bind List.mem_cons_self fun hi => ?_
      rw [result_after (List.forall_mem_singleton.mpr hi), ← scanLoop_eq_result n (i + 1) _ records]
      exact if_neg hwindow

end Scans

/-! ## Reads -/

section Reads

variable {file : Input} {garbage : Nat → UInt8} {st : ReadState}

/-- The scan of the buffer after the next `fread`. -/
def ReadState.scan (file : Input) (st : ReadState) : Scan :=
  Zip.scan (st.read file) (st.bytes file) st.pos (st.bytes file) 0 st.window st.records

/-- How far the `fseek` behind the scan goes back. -/
def ReadState.seekBack (file : Input) (st : ReadState) : Nat :=
  if st.bytes file > (st.scan file).offset then (st.scan file).offset else 0

/-- The body of the loop over the reads, as `readOnce`, with the memory behind the buffer read
as if it belonged to it. -/
def ReadState.next (file : Input) (st : ReadState) : ReadState where
  pos := st.pos + st.bytes file - st.seekBack file
  buffer := st.read file
  window := (st.scan file).window
  records := (st.scan file).records

theorem readOnce_eq (file : Input) (st : ReadState) : readOnce file st =
    if (st.scan file).Within bufferSize then .ok (st.next file) else .error .undefined := by
  unfold readOnce
  simp only [scanLoop_eq_result]
  change (st.scan file).result.bind _ = _
  by_cases h : (st.scan file).Within bufferSize
  · rw [result_of_within h, if_pos h]
    refine congrArg Except.ok ?_
    unfold ReadState.next ReadState.seekBack
    split
    · rfl
    · rfl
  · rw [result_of_not h, if_neg h]
    rfl

/-- At most one record is cut. -/
theorem forall_cut_iff {lo hi s : Nat} (hcut : Cut file lo hi s) :
    (∀ c, Cut file lo hi c → c + 27 ≠ hi) ↔ s + 27 ≠ hi :=
  ⟨fun h => h s hcut, fun h _ hc => hc.unique hcut ▸ h⟩

/-- The bytes of a name that ends in front of `stop`. -/
theorem forall_mem_name {i len stop : Nat} (h : i + 27 + len ≤ stop) :
    ∀ k ∈ (List.range len).map (i + 27 + ·), k < stop := by
  intro k hk
  obtain ⟨m, hm, rfl⟩ := List.mem_map.mp hk
  have hm := List.mem_range.mp hm
  omega

/-- The length in the buffer is that in the file, where both of its bytes were delivered. -/
theorem lenAt_eq {i : Nat} (hge : 3 ≤ i) (hlength : i + 24 < st.bytes file) :
    lenAt (st.read file) i = nameLength file (st.pos + (i - 3)) := by
  have hstop : st.stop file = st.pos + st.bytes file := rfl
  rw [← seenLength_of_lt (Nat.le_add_right _ _) (by omega), lenAt, seenLength,
    show st.pos + (i - 3) + 26 - st.pos = i + 23 by omega,
    show st.pos + (i - 3) + 27 - st.pos = i + 24 by omega]

/-- The scan from index `i` on, where the records before that end in the buffer: it reads bytes
of the buffer that were delivered, unless the first record that does not end in it has its
second length byte right behind them. -/
theorem scan_fresh_iff (hquiet : Quiet file st.pos (st.bytes file) st.window) :
    ∀ (n i : Nat) (records : List Record), i + n = st.bytes file →
    EndBefore file st.pos i (st.stop file) →
    ((scan (st.read file) (st.bytes file) st.pos n i (windowAfter file st.pos st.window i)
        records).Within (st.bytes file) ↔
      ∀ s, Cut file st.pos (st.stop file) s → s + 27 ≠ st.stop file)
  | 0, i, records, hi, hbefore => by
    refine iff_of_true (List.forall_mem_nil _) fun s hs => ?_
    have hstop := hs.signature_le
    unfold ReadState.stop at hstop
    exact absurd (hbefore s hs.start_le (by omega) hs.signature) (Nat.not_le.mpr hs.lt_end)
  | n + 1, i, records, hi, hbefore => by
    have hlt : i < st.bytes file := by omega
    have hstop : st.stop file = st.pos + st.bytes file := rfl
    have hiff := windowAfter_succ_eq_signature_iff hquiet hlt
    have hmove : moveWindow (windowAfter file st.pos st.window i) (st.read file i) =
        windowAfter file st.pos st.window (i + 1) := by
      rw [windowAfter, read_of_lt hlt]
    by_cases hwindow : windowAfter file st.pos st.window (i + 1) = zipSignature
    · obtain ⟨hge, hsig⟩ := hiff.mp hwindow
      have hcut := hbefore.cut hge hlt hsig
      have hend : recordEnd file (st.pos + (i - 3)) =
          st.pos + (i - 3) + 30 + nameLength file (st.pos + (i - 3)) := rfl
      rcases Nat.lt_trichotomy (st.bytes file) (i + 24) with hheader | heq | hlength
      · rw [scan_found (hmove.trans hwindow), if_pos hheader, forall_cut_iff (hcut (by omega))]
        exact iff_of_true (List.forall_mem_singleton.mpr hlt) (by omega)
      · -- The second length byte is the first one behind those that were delivered.
        have hmem := (mem_scan_found (st.bytes file) st.pos n records (hmove.trans hwindow)).2
          (by omega)
        rw [forall_cut_iff (hcut (by omega))]
        exact iff_of_false (fun hall => absurd (hall _ hmem.2) (by omega)) (by omega)
      · rw [scan_found (hmove.trans hwindow), if_neg (by omega), lenAt_eq hge hlength]
        split
        · rw [forall_cut_iff (hcut (by omega))]
          exact iff_of_true (forall_mem_head hlength) (by omega)
        · next hname =>
          have hrest := scan_fresh_iff hquiet n (i + 1) (records ++ [⟨st.pos + i - 3,
            (List.range (nameLength file (st.pos + (i - 3)))).map fun n =>
              st.read file (i + 27 + n)⟩]) (by omega) (hbefore.succ fun _ _ => by omega)
          rw [hwindow] at hrest
          exact (within_after.trans (and_iff_right (List.forall_mem_append.mpr
            ⟨forall_mem_head hlength, forall_mem_name (by omega)⟩))).trans hrest
    · rw [scan_skip fun h => hwindow (hmove.symm.trans h), hmove]
      have hrest := scan_fresh_iff hquiet n (i + 1) records (by omega) (hbefore.succ fun h3 hsig =>
        absurd (hiff.mpr ⟨h3, hsig⟩) hwindow)
      exact (within_after.trans (and_iff_right (List.forall_mem_singleton.mpr hlt))).trans hrest

theorem scan_within_iff (hquiet : Quiet file st.pos (st.bytes file) st.window) :
    (st.scan file).Within (st.bytes file) ↔
      ∀ s, Cut file st.pos (st.stop file) s → s + 27 ≠ st.stop file :=
  scan_fresh_iff hquiet (st.bytes file) 0 st.records (Nat.zero_add _)
    fun r hr hr' => absurd hr' (by omega)

/-- Every access of every read is to a byte that this read delivered, exactly if no read ends
right before the second length byte of the first record that does not end in it. -/
theorem accesses_fresh_iff (file : Input) (garbage : Nat → UInt8) :
    (∀ st, Reads file (firstRead garbage) st →
      ∀ k ∈ (st.scan file).accesses, k < st.bytes file) ↔
    ∀ st, Reads file (firstRead garbage) st →
      ∀ s, Cut file st.pos (st.stop file) s → s + 27 ≠ st.stop file :=
  forall_congr' fun _ => forall_congr' fun hreads => scan_within_iff hreads.quiet

/-- The signature of a record and 23 bytes more. -/
def cutFile : Input where
  size := 27
  byte k := ([0x50, 0x4b, 3, 4] : Bytes).getD k 0

/-- The byte behind the 27 that were delivered is read. -/
theorem cut_file_overread : (firstRead fun _ => 0).bytes cutFile = 27 ∧
    ¬∀ st, Reads cutFile (firstRead fun _ => 0) st →
      ∀ k ∈ (st.scan cutFile).accesses, k < st.bytes cutFile := by
  refine ⟨rfl, fun hall => ?_⟩
  have hmem : 27 ∈ ((firstRead fun _ => 0).scan cutFile).accesses := by decide
  exact absurd (hall _ Relation.ReflTransGen.refl 27 hmem) (by decide)

/-! ## The end of the loop -/

/-- A read gets further, and goes back by less than it delivered. -/
theorem next_pos (file : Input) (st : ReadState) (h : 0 < st.bytes file) :
    st.seekBack file < st.bytes file ∧
      (st.next file).pos + st.seekBack file = st.stop file ∧ st.pos < (st.next file).pos := by
  have hseek : st.seekBack file < st.bytes file := by
    unfold ReadState.seekBack
    split
    · assumption
    · exact h
  unfold ReadState.next ReadState.stop
  dsimp only
  omega

theorem next_le_size (h : st.pos ≤ file.size) : (st.next file).pos ≤ file.size := by
  have hstop := stop_le_size h
  unfold ReadState.stop at hstop
  unfold ReadState.next
  dsimp only
  omega

/-- The loop ends at the size of the file at the latest. -/
theorem exists_last_read (file : Input) : ∀ (left : Nat) (st : ReadState),
    st.pos ≤ file.size → file.size - st.pos ≤ left →
    ∃ n ≤ left, ((ReadState.next file)^[n] st).bytes file = 0 ∧
      ∀ m < n, 0 < ((ReadState.next file)^[m] st).bytes file
  | left, st, hpos, hleft => by
    rcases Nat.eq_zero_or_pos (st.bytes file) with hzero | hbytes
    · exact ⟨0, Nat.zero_le _, hzero, fun m hm => absurd hm (Nat.not_lt_zero m)⟩
    · have hnext := (next_pos file st hbytes).2.2
      have hsize := next_le_size hpos
      cases left with
      | zero => omega
      | succ left =>
        obtain ⟨n, hn, hend, hbefore⟩ :=
          exists_last_read file left (st.next file) hsize (by omega)
        refine ⟨n + 1, Nat.succ_le_succ hn, hend, fun m hm => ?_⟩
        cases m with
        | zero => exact hbytes
        | succ m => exact hbefore m (Nat.lt_of_succ_lt_succ hm)

theorem eq_next_of_readOnce {st' : ReadState} (h : readOnce file st = .ok st') :
    st' = st.next file := by
  rw [readOnce_eq] at h
  split at h
  · exact (Except.ok.inj h).symm
  · cases h

/-- `extract_files` ends on every file: every read gets further and seeks back to a place
behind the start of what it delivered, so that after at most as many reads as the file has
bytes one delivers nothing. -/
theorem extract_files_terminates (file : Input) (garbage : Nat → UInt8) :
    (∀ st st' : ReadState, readOnce file st = .ok st' → st' = st.next file) ∧
    (∀ st : ReadState, 0 < st.bytes file →
      st.seekBack file < st.bytes file ∧
        (st.next file).pos + st.seekBack file = st.pos + st.bytes file ∧
          st.pos < (st.next file).pos) ∧
    (∃ n ≤ file.size, ((ReadState.next file)^[n] (firstRead garbage)).bytes file = 0 ∧
      ∀ m < n, 0 < ((ReadState.next file)^[m] (firstRead garbage)).bytes file) ∧
    extractFiles file garbage ≠ .error .unfinished :=
  ⟨fun _ _ => eq_next_of_readOnce, next_pos file,
    exists_last_read file file.size (firstRead garbage) (Nat.zero_le _) (Nat.sub_le _ _),
    extractFiles_finishes file garbage⟩

end Reads

end CourseWork.Zip
