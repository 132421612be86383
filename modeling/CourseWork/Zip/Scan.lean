import CourseWork.Zip.ExtractFiles
import Mathlib.Data.List.Nodup

/-!
# The scan of a buffer

What the loop over a buffer finds: the records of the file from the start of the buffer up to
the first one that does not end in it. The window that is left from the buffer before makes
no difference.
-/

namespace CourseWork.Zip
open CLib

/-! ## Records of a file -/

/-- A signature starts at `s`. -/
def Signature (file : Input) (s : Nat) : Prop :=
  file.byte s = 0x50 ∧ file.byte (s + 1) = 0x4b ∧ file.byte (s + 2) = 0x03 ∧ file.byte (s + 3) = 0x04

instance (file : Input) (s : Nat) : Decidable (Signature file s) :=
  inferInstanceAs (Decidable (_ ∧ _))

/-- The length of the name behind the signature at `s`. -/
def nameLength (file : Input) (s : Nat) : Nat := (file.byte (s + 26) ||| file.byte (s + 27)).toNat

/-- The end of the record: of its header, which has 30 bytes, and its name. -/
def recordEnd (file : Input) (s : Nat) : Nat := s + 30 + nameLength file s

/-- The record whose signature starts at `s`. -/
def recordAt (file : Input) (s : Nat) : Record :=
  ⟨s, (List.range (nameLength file s)).map fun n => file.byte (s + 30 + n)⟩

/-- The records whose signatures start in `lo .. hi`, and which end at `stop` at the latest. -/
def recordsIn (file : Input) (lo hi stop : Nat) : List Record :=
  ((List.range' lo (hi - lo)).filter fun s =>
    decide (Signature file s ∧ recordEnd file s ≤ stop)).map (recordAt file)

section Records

variable {file : Input} {lo mid hi stop s : Nat} {r : Record}

theorem mem_recordsIn : r ∈ recordsIn file lo hi stop ↔
    ∃ s, lo ≤ s ∧ s < hi ∧ Signature file s ∧ recordEnd file s ≤ stop ∧ recordAt file s = r := by
  simp only [recordsIn, List.mem_map, List.mem_filter, List.mem_range'_1, decide_eq_true_eq]
  constructor
  · rintro ⟨s, ⟨⟨hlo, hhi⟩, hsig, hend⟩, rfl⟩
    exact ⟨s, hlo, by omega, hsig, hend, rfl⟩
  · rintro ⟨s, hlo, hhi, hsig, hend, rfl⟩
    exact ⟨s, ⟨⟨hlo, by omega⟩, hsig, hend⟩, rfl⟩

theorem recordsIn_append (h1 : lo ≤ mid) (h2 : mid ≤ hi) :
    recordsIn file lo mid stop ++ recordsIn file mid hi stop = recordsIn file lo hi stop := by
  rw [recordsIn, recordsIn, recordsIn, ← List.map_append, ← List.filter_append,
    show hi - lo = (mid - lo) + (hi - mid) by omega, ← List.range'_append_1,
    show lo + (mid - lo) = mid by omega]

theorem recordsIn_eq_nil (h : ∀ s, lo ≤ s → s < hi → Signature file s → stop < recordEnd file s) :
    recordsIn file lo hi stop = [] := by
  rw [List.eq_nil_iff_forall_not_mem]
  intro r hr
  obtain ⟨s, hlo, hhi, hsig, hend, _⟩ := mem_recordsIn.mp hr
  exact absurd (h s hlo hhi hsig) (Nat.not_lt.mpr hend)

/-- A later bound for the ends makes no difference where all records meet the earlier one. -/
theorem recordsIn_congr {stop' : Nat} (hle : stop ≤ stop')
    (h : ∀ s, lo ≤ s → s < hi → Signature file s → recordEnd file s ≤ stop) :
    recordsIn file lo hi stop = recordsIn file lo hi stop' := by
  rw [recordsIn, recordsIn]
  refine congrArg (List.map _) (List.filter_congr fun s hs => ?_)
  rw [List.mem_range'_1] at hs
  rw [decide_eq_decide]
  exact and_congr_right fun hsig =>
    iff_of_true (h s hs.1 (by omega) hsig) (Nat.le_trans (h s hs.1 (by omega) hsig) hle)

/-- One more place. -/
theorem recordsIn_succ (h : lo ≤ s) : recordsIn file lo (s + 1) stop =
    recordsIn file lo s stop ++
      if Signature file s ∧ recordEnd file s ≤ stop then [recordAt file s] else [] := by
  rw [← recordsIn_append h (Nat.le_succ s)]
  congr 1
  rw [recordsIn, show s.succ - s = 1 by omega, List.range'_one, List.filter_singleton]
  by_cases hs : Signature file s ∧ recordEnd file s ≤ stop
  · rw [if_pos hs, decide_eq_true hs]
    rfl
  · rw [if_neg hs, decide_eq_false hs]
    rfl

/-- A place without a signature adds nothing; before the fourth byte there is no place. -/
theorem recordsIn_skip {i : Nat} (h : 3 ≤ i → ¬Signature file (lo + (i - 3))) :
    recordsIn file lo (lo + (i + 1 - 3)) stop = recordsIn file lo (lo + (i - 3)) stop := by
  rcases Nat.lt_or_ge i 3 with hlt | hge
  · rw [show i + 1 - 3 = i - 3 by omega]
  · rw [show lo + (i + 1 - 3) = lo + (i - 3) + 1 by omega, recordsIn_succ (by omega),
      if_neg fun hrecord => h hge hrecord.1, List.append_nil]

theorem nodup_recordsIn : (recordsIn file lo hi stop).Nodup := by
  refine List.Nodup.map (fun s s' h => congrArg Record.start h) ?_
  exact (List.nodup_range' 1).filter _

end Records

/-! ## The window -/

/-- The window after `n` bytes of the file from `pos` on. -/
def windowAfter (file : Input) (pos : Nat) (window : UInt32) : Nat → UInt32
  | 0 => window
  | n + 1 => moveWindow (windowAfter file pos window n) (file.byte (pos + n))

theorem toNat_moveWindow (window : UInt32) (b : UInt8) :
    (moveWindow window b).toNat = (window.toNat * 256 + b.toNat) % 2 ^ 32 := by
  have hb := b.toNat_lt
  have hmask : (b.toUInt32 &&& 0xFF).toNat = b.toNat := by
    rw [UInt32.toNat_and, UInt8.toNat_toUInt32]
    show b.toNat &&& 2 ^ 8 - 1 = _
    rw [Nat.and_two_pow_sub_one_eq_mod]
    omega
  have hshift : (window <<< 8).toNat = (window.toNat % 2 ^ 24) <<< 8 := by
    rw [UInt32.toNat_shiftLeft, Nat.shiftLeft_eq, Nat.shiftLeft_eq]
    show window.toNat * 2 ^ 8 % 2 ^ 32 = _
    omega
  rw [moveWindow, UInt32.toNat_or, hmask, hshift, ← Nat.shiftLeft_add_eq_or_of_lt hb,
    Nat.shiftLeft_eq]
  omega

theorem toNat_windowAfter_succ (file : Input) (pos : Nat) (window : UInt32) (n : Nat) :
    (windowAfter file pos window (n + 1)).toNat =
      ((windowAfter file pos window n).toNat * 256 + (file.byte (pos + n)).toNat) % 2 ^ 32 :=
  toNat_moveWindow _ _

/-- The window is the signature exactly if the last four bytes are. -/
theorem windowAfter_eq_signature_iff (file : Input) (pos : Nat) (window : UInt32) (n : Nat) :
    windowAfter file pos window (n + 4) = zipSignature ↔ Signature file (pos + n) := by
  have h1 := toNat_windowAfter_succ file pos window n
  have h2 := toNat_windowAfter_succ file pos window (n + 1)
  have h3 := toNat_windowAfter_succ file pos window (n + 2)
  have h4 := toNat_windowAfter_succ file pos window (n + 3)
  rw [Signature, ← UInt8.toNat_inj, ← UInt8.toNat_inj, ← UInt8.toNat_inj, ← UInt8.toNat_inj,
    ← UInt32.toNat_inj, h4, h3, h2, h1]
  have hb0 := (file.byte (pos + n)).toNat_lt
  have hb1 := (file.byte (pos + (n + 1))).toNat_lt
  have hb2 := (file.byte (pos + (n + 2))).toNat_lt
  have hb3 := (file.byte (pos + (n + 3))).toNat_lt
  show _ = 0x504b0304 ↔ _ = 0x50 ∧ _ = 0x4b ∧ _ = 0x03 ∧ _ = 0x04
  rw [Nat.add_assoc, Nat.add_assoc, Nat.add_assoc]
  omega

/-- The bytes that are in the window before a read do not become a part of a signature. -/
def Quiet (file : Input) (pos bytes : Nat) (window : UInt32) : Prop :=
  ∀ n < 3, n < bytes → windowAfter file pos window (n + 1) ≠ zipSignature

/-- A window and the three bytes that move into it first. -/
theorem windowAfter_three (file : Input) (pos : Nat) (window : UInt32) :
    (windowAfter file pos window 1).toNat = (window.toNat * 256 + (file.byte pos).toNat) % 2 ^ 32 ∧
    (windowAfter file pos window 2).toNat = ((windowAfter file pos window 1).toNat * 256 +
      (file.byte (pos + 1)).toNat) % 2 ^ 32 ∧
    (windowAfter file pos window 3).toNat = ((windowAfter file pos window 2).toNat * 256 +
      (file.byte (pos + 2)).toNat) % 2 ^ 32 :=
  ⟨toNat_windowAfter_succ file pos window 0, toNat_windowAfter_succ file pos window 1,
    toNat_windowAfter_succ file pos window 2⟩

theorem quiet_of_ne {file : Input} {pos bytes : Nat} {window : UInt32}
    (h : ∀ n, n = 1 ∨ n = 2 ∨ n = 3 →
      (windowAfter file pos window n).toNat ≠ 0x504b0304) : Quiet file pos bytes window :=
  fun n hn _ heq => h (n + 1) (by omega) (by rw [heq]; rfl)

theorem quiet_of_signature {file : Input} {pos bytes : Nat} {window : UInt32}
    (h : window = 0 ∨ window = zipSignature) : Quiet file pos bytes window := by
  have hvalue : window.toNat = 0 ∨ window.toNat = 0x504b0304 := by
    rcases h with rfl | rfl
    · exact .inl rfl
    · exact .inr rfl
  obtain ⟨h1, h2, h3⟩ := windowAfter_three file pos window
  have hb0 := (file.byte pos).toNat_lt
  have hb1 := (file.byte (pos + 1)).toNat_lt
  have hb2 := (file.byte (pos + 2)).toNat_lt
  refine quiet_of_ne ?_
  rintro n (rfl | rfl | rfl)
  · omega
  · omega
  · omega

/-- Three bytes that are read again do not make a signature either. -/
theorem quiet_of_overlap (file : Input) (pos : Nat) (window : UInt32) (bytes m : Nat) :
    Quiet file (pos + m) bytes (windowAfter file pos window (m + 3)) := by
  have h1 := toNat_windowAfter_succ file pos window m
  have h2 := toNat_windowAfter_succ file pos window (m + 1)
  have h3 := toNat_windowAfter_succ file pos window (m + 2)
  obtain ⟨g1, g2, g3⟩ := windowAfter_three file (pos + m) (windowAfter file pos window (m + 3))
  have hb0 := (file.byte (pos + m)).toNat_lt
  have hb1 := (file.byte (pos + m + 1)).toNat_lt
  have hb2 := (file.byte (pos + m + 2)).toNat_lt
  rw [← Nat.add_assoc] at h2 h3
  change (windowAfter file pos window (m + 2)).toNat = _ at h2
  change (windowAfter file pos window (m + 3)).toNat = _ at h3
  refine quiet_of_ne ?_
  rintro n (rfl | rfl | rfl)
  · omega
  · omega
  · omega

theorem windowAfter_succ_eq_signature_iff {file : Input} {pos bytes n : Nat} {window : UInt32}
    (hquiet : Quiet file pos bytes window) (hn : n < bytes) :
    windowAfter file pos window (n + 1) = zipSignature ↔ 3 ≤ n ∧ Signature file (pos + (n - 3)) := by
  rcases Nat.lt_or_ge n 3 with hlt | hge
  · exact iff_of_false (hquiet n hlt hn) fun h => absurd h.1 (Nat.not_le.mpr hlt)
  · obtain ⟨k, rfl⟩ := Nat.exists_eq_add_of_le' hge
    rw [Nat.add_sub_cancel, and_iff_right hge]
    exact windowAfter_eq_signature_iff file pos window k

/-! ## The scan -/

/-- The first record of a buffer from `pos` to `stop` that does not end in it. -/
structure Cut (file : Input) (pos stop s : Nat) : Prop where
  start_le : pos ≤ s
  signature_le : s + 4 ≤ stop
  signature : Signature file s
  lt_end : stop < recordEnd file s
  first : ∀ r, pos ≤ r → r < s → Signature file r → recordEnd file r ≤ stop

/-- Without such a record, all that start in the buffer end in it. -/
theorem recordEnd_le_of_no_cut {file : Input} {pos stop : Nat} (h : ∀ s, ¬Cut file pos stop s) :
    ∀ r, pos ≤ r → r + 4 ≤ stop → Signature file r → recordEnd file r ≤ stop := by
  intro r
  induction r using Nat.strong_induction_on with
  | _ r ih =>
    intro hpos hstop hsig
    by_contra hlt
    refine h r ⟨hpos, hstop, hsig, Nat.not_le.mp hlt, fun q hq hqr => ?_⟩
    exact ih q hqr hq (by omega)

/-- There is only one such record. -/
theorem Cut.unique {file : Input} {pos stop s s' : Nat} (h : Cut file pos stop s)
    (h' : Cut file pos stop s') : s = s' := by
  rcases Nat.lt_trichotomy s s' with hlt | heq | hgt
  · exact absurd (h'.first s h.start_le hlt h.signature) (Nat.not_le.mpr h.lt_end)
  · exact heq
  · exact absurd (h.first s' h'.start_le hgt h'.signature) (Nat.not_le.mpr h'.lt_end)

section Scan

variable (file : Input) (st : ReadState)

/-- Where the buffer ends in the file. -/
def ReadState.stop : Nat := st.pos + st.bytes file

/-- The length of the name that the code sees: its second byte may be behind the bytes that
were read. -/
def seenLength (s : Nat) : Nat :=
  (st.read file (s + 26 - st.pos) ||| st.read file (s + 27 - st.pos)).toNat

/-- The distance of the roll back after a cut. -/
def rollBack (s : Nat) : Nat :=
  if st.stop file < s + 27 then 24 else s + 30 + seenLength file st s - st.stop file

/-- The length is read behind the end of the buffer. -/
def Overrun (s : Nat) : Prop := s + 27 = st.stop file ∧ st.bytes file = bufferSize

instance (s : Nat) : Decidable (Overrun file st s) := inferInstanceAs (Decidable (_ ∧ _))

/-- The outcome of the loop over a buffer. -/
inductive ScanResult : Except Stop (Nat × UInt32 × List Record) → Prop
  | complete (h : ∀ s, ¬Cut file st.pos (st.stop file) s) :
      ScanResult (.ok (3, windowAfter file st.pos st.window (st.bytes file),
        st.records ++ recordsIn file st.pos (st.stop file - 3) (st.stop file)))
  | cut {s : Nat} (h : Cut file st.pos (st.stop file) s) (hread : ¬Overrun file st s) :
      ScanResult (.ok (rollBack file st s, zipSignature,
        st.records ++ recordsIn file st.pos s (st.stop file)))
  | undefined {s : Nat} (h : Cut file st.pos (st.stop file) s) (hread : Overrun file st s) :
      ScanResult (.error .undefined)

end Scan

section Scan

variable {file : Input} {st : ReadState}

theorem ReadState.bytes_le (file : Input) (st : ReadState) : st.bytes file ≤ bufferSize :=
  Nat.min_le_left _ _

theorem read_of_lt {k : Nat} (h : k < st.bytes file) : st.read file k = file.byte (st.pos + k) :=
  if_pos h

theorem seenLength_of_lt {s : Nat} (hpos : st.pos ≤ s) (h : s + 27 < st.stop file) :
    seenLength file st s = nameLength file s := by
  unfold ReadState.stop at h
  rw [seenLength, nameLength, read_of_lt (by omega), read_of_lt (by omega),
    show st.pos + (s + 26 - st.pos) = s + 26 by omega,
    show st.pos + (s + 27 - st.pos) = s + 27 by omega]

theorem mapM_ok {ε α β : Type} {f : α → Except ε β} {g : α → β} :
    ∀ {l : List α}, (∀ a ∈ l, f a = .ok (g a)) → l.mapM f = .ok (l.map g)
  | [], _ => rfl
  | a :: l, h => by
    rw [List.mapM_cons, h a List.mem_cons_self, mapM_ok fun b hb => h b (List.mem_cons_of_mem _ hb)]
    rfl

/-- A name that lies in the buffer. -/
theorem copyName_ok {s len : Nat} (hpos : st.pos ≤ s) (hlen : len < fNameSize)
    (h : s + 30 + len ≤ st.stop file) :
    copyName (st.read file) (s + 30 - st.pos) len =
      .ok ((List.range len).map fun n => file.byte (s + 30 + n)) := by
  have hbytes := st.bytes_le file
  unfold ReadState.stop at h
  rw [copyName, if_pos hlen]
  refine mapM_ok fun n hn => ?_
  have hn := List.mem_range.mp hn
  rw [bufferAt, if_pos (by omega), read_of_lt (by omega),
    show st.pos + (s + 30 - st.pos + n) = s + 30 + n by omega]

/-- A round of the loop that does not find a signature. -/
theorem scanLoop_skip {n i : Nat} {window : UInt32} {records : List Record}
    (hi : i < st.bytes file) (h : moveWindow window (file.byte (st.pos + i)) ≠ zipSignature) :
    scanLoop (st.read file) (st.bytes file) st.pos (n + 1) i window records =
      scanLoop (st.read file) (st.bytes file) st.pos n (i + 1)
        (moveWindow window (file.byte (st.pos + i))) records := by
  have hbyte : bufferAt (st.read file) i = .ok (file.byte (st.pos + i)) := by
    rw [bufferAt, if_pos (Nat.lt_of_lt_of_le hi (st.bytes_le file)), read_of_lt hi]
  rw [scanLoop, hbyte]
  exact if_neg h

/-- A round that finds the end of the signature at `s`. -/
theorem scanLoop_found {n k s : Nat} {window : UInt32} {records : List Record}
    (hs : s = st.pos + k) (hk : k + 3 < st.bytes file)
    (h : moveWindow window (file.byte (st.pos + (k + 3))) = zipSignature) :
    scanLoop (st.read file) (st.bytes file) st.pos (n + 1) (k + 3) window records =
      if st.stop file < s + 27 then .ok (24, zipSignature, records)
      else if Overrun file st s then .error .undefined
      else if st.stop file < s + 30 + seenLength file st s then
        .ok (s + 30 + seenLength file st s - st.stop file, zipSignature, records)
      else scanLoop (st.read file) (st.bytes file) st.pos n (k + 3 + 1) zipSignature
        (records ++ [recordAt file s]) := by
  have hbytes := st.bytes_le file
  have hstop : st.stop file = st.pos + st.bytes file := rfl
  have hbyte : bufferAt (st.read file) (k + 3) = .ok (file.byte (st.pos + (k + 3))) := by
    rw [bufferAt, if_pos (Nat.lt_of_lt_of_le hk hbytes), read_of_lt hk]
  rw [scanLoop, hbyte]
  simp only [bind, Except.bind, pure, Except.pure]
  rw [if_pos h, h]
  by_cases hheader : st.stop file < s + 27
  · rw [if_pos hheader, if_pos (by omega)]
  · rw [if_neg hheader, if_neg (by omega)]
    have hfirst : bufferAt (st.read file) (k + 3 + 23) = .ok (st.read file (k + 3 + 23)) :=
      if_pos (by omega)
    rw [hfirst]
    dsimp only
    by_cases hover : Overrun file st s
    · have hsecond : bufferAt (st.read file) (k + 3 + 24) = .error .undefined :=
        if_neg (by have := hover.1; have := hover.2; omega)
      rw [hsecond, if_pos hover]
    · have hsecond : bufferAt (st.read file) (k + 3 + 24) = .ok (st.read file (k + 3 + 24)) := by
        refine if_pos (Nat.lt_of_le_of_ne (by omega) fun heq => hover ⟨?_, ?_⟩)
        · omega
        · omega
      have hlen : (st.read file (k + 3 + 23) ||| st.read file (k + 3 + 24)).toNat =
          seenLength file st s := by
        rw [seenLength, show s + 26 - st.pos = k + 3 + 23 by omega,
          show s + 27 - st.pos = k + 3 + 24 by omega]
      rw [hsecond, if_neg hover]
      dsimp only
      rw [hlen]
      by_cases hname : st.stop file < s + 30 + seenLength file st s
      · rw [if_pos hname, if_pos (by omega), show k + 3 + 27 + seenLength file st s - st.bytes file =
          s + 30 + seenLength file st s - st.stop file by omega]
      · have hcopy : copyName (st.read file) (s + 30 - st.pos) (seenLength file st s) =
            .ok ((List.range (seenLength file st s)).map fun n => file.byte (s + 30 + n)) :=
          copyName_ok (by omega) (UInt8.toNat_lt _) (by omega)
        rw [if_neg hname, if_neg (by omega), show k + 3 + 27 = s + 30 - st.pos by omega, hcopy,
          recordAt, ← seenLength_of_lt (show st.pos ≤ s by omega) (by omega),
          show st.pos + (k + 3) - 3 = s by omega]

/-- The records before an index end in front of `stop`. -/
def EndBefore (file : Input) (pos i stop : Nat) : Prop :=
  ∀ r, pos ≤ r → r < pos + (i - 3) → Signature file r → recordEnd file r ≤ stop

theorem EndBefore.succ {pos i stop : Nat} (h : EndBefore file pos i stop)
    (hlast : 3 ≤ i → Signature file (pos + (i - 3)) → recordEnd file (pos + (i - 3)) ≤ stop) :
    EndBefore file pos (i + 1) stop := fun r hr hr' hsig => by
  rcases Nat.lt_or_ge r (pos + (i - 3)) with hlt | hge
  · exact h r hr hlt hsig
  · obtain rfl : r = pos + (i - 3) := by omega
    exact hlast (by omega) hsig

/-- A record that does not end in the buffer, behind some that do. -/
theorem EndBefore.cut {i : Nat} (h : EndBefore file st.pos i (st.stop file)) (hge : 3 ≤ i)
    (hlt : i < st.bytes file) (hsig : Signature file (st.pos + (i - 3)))
    (hend : st.stop file < recordEnd file (st.pos + (i - 3))) :
    Cut file st.pos (st.stop file) (st.pos + (i - 3)) := by
  have hstop : st.stop file = st.pos + st.bytes file := rfl
  exact ⟨Nat.le_add_right _ _, by omega, hsig, hend, h⟩

/-- Behind the buffer all of its records are reported, if each of them lies inside. -/
theorem scanResult_end (hinside : EndBefore file st.pos (st.bytes file) (st.stop file)) :
    ScanResult file st (.ok (3, windowAfter file st.pos st.window (st.bytes file),
      st.records ++ recordsIn file st.pos (st.pos + (st.bytes file - 3)) (st.stop file))) := by
  have hno : ∀ s, ¬Cut file st.pos (st.stop file) s := by
    intro s hs
    have hstop := hs.signature_le
    unfold ReadState.stop at hstop
    exact absurd (hinside s hs.start_le (by omega) hs.signature) (Nat.not_le.mpr hs.lt_end)
  have hrecords : recordsIn file st.pos (st.pos + (st.bytes file - 3)) (st.stop file) =
      recordsIn file st.pos (st.stop file - 3) (st.stop file) := by
    rw [recordsIn, recordsIn, show st.pos + (st.bytes file - 3) - st.pos =
      st.stop file - 3 - st.pos by unfold ReadState.stop; omega]
  rw [hrecords]
  exact .complete hno

section Cuts

variable {s : Nat}

/-- A record that is cut seems to be so with the length that the code sees. -/
theorem stop_lt_of_cut (hcut : Cut file st.pos (st.stop file) s)
    (hheader : ¬st.stop file < s + 27) :
    st.stop file < s + 30 + seenLength file st s := by
  rcases Nat.eq_or_lt_of_le (Nat.not_lt.mp hheader) with heq | hlt
  · omega
  · rw [seenLength_of_lt hcut.start_le hlt]
    exact hcut.lt_end

/-- What the loop returns at a record that is cut. -/
theorem scanResult_cut {records : List Record} (hcut : Cut file st.pos (st.stop file) s)
    (hrecords : records = st.records ++ recordsIn file st.pos s (st.stop file)) :
    ScanResult file st
      (if st.stop file < s + 27 then .ok (24, zipSignature, records)
      else if Overrun file st s then .error .undefined
      else .ok (s + 30 + seenLength file st s - st.stop file, zipSignature, records)) := by
  rw [hrecords]
  split
  · next hheader =>
    have hroll : rollBack file st s = 24 := if_pos hheader
    rw [← hroll]
    exact .cut hcut fun hover => absurd hover.1 (by omega)
  · next hheader =>
    have hroll : rollBack file st s = s + 30 + seenLength file st s - st.stop file :=
      if_neg hheader
    rw [← hroll]
    split
    · next hover => exact .undefined hcut hover
    · next hover => exact .cut hcut hover

end Cuts

/-- The loop over the buffer from index `i` on, where the records before that are reported. -/
theorem scanLoop_spec (hquiet : Quiet file st.pos (st.bytes file) st.window) :
    ∀ (n : Nat) {i : Nat}, i + n = st.bytes file → EndBefore file st.pos i (st.stop file) →
    ScanResult file st (scanLoop (st.read file) (st.bytes file) st.pos n i
      (windowAfter file st.pos st.window i)
      (st.records ++ recordsIn file st.pos (st.pos + (i - 3)) (st.stop file)))
  | 0, i, hi, hbefore => by
    obtain rfl : i = st.bytes file := hi
    exact scanResult_end hbefore
  | n + 1, i, hi, hbefore => by
    have hlt : i < st.bytes file := by omega
    have hiff := windowAfter_succ_eq_signature_iff hquiet hlt
    by_cases hwindow : windowAfter file st.pos st.window (i + 1) = zipSignature
    · obtain ⟨hge, hsig⟩ := hiff.mp hwindow
      have hcut := hbefore.cut hge hlt hsig
      obtain ⟨k, rfl⟩ := Nat.exists_eq_add_of_le' hge
      rw [Nat.add_sub_cancel] at hsig hcut ⊢
      -- The signature starts at `s`, three bytes before.
      obtain ⟨s, hs⟩ : ∃ s, s = st.pos + k := ⟨_, rfl⟩
      rw [scanLoop_found hs hlt hwindow]
      rw [← hs] at hsig hcut ⊢
      by_cases hend : st.stop file < recordEnd file s
      · have hresult := scanResult_cut (hcut hend) rfl
        split
        · next hheader => rwa [if_pos hheader] at hresult
        · next hheader =>
          rw [if_neg hheader] at hresult
          rwa [if_pos (stop_lt_of_cut (hcut hend) hheader)]
      · have hle : s + 30 + nameLength file s ≤ st.stop file := Nat.not_lt.mp hend
        have hseen : seenLength file st s = nameLength file s :=
          seenLength_of_lt (by omega) (by omega)
        have hover : ¬Overrun file st s := fun hover => absurd hover.1 (by omega)
        have hnext : k + 3 + 1 - 3 = k + 1 := by omega
        have hrest := scanLoop_spec hquiet n (i := k + 3 + 1) (by omega) (hbefore.succ fun _ _ => by
          rw [Nat.add_sub_cancel, ← hs]
          exact Nat.not_lt.mp hend)
        rw [hwindow, hnext, ← Nat.add_assoc, ← hs, recordsIn_succ (by omega),
          if_pos ⟨hsig, Nat.not_lt.mp hend⟩, ← List.append_assoc] at hrest
        rw [if_neg (by omega), if_neg hover, hseen, if_neg (by omega)]
        exact hrest
    · rw [scanLoop_skip hlt hwindow]
      have hnone : 3 ≤ i → ¬Signature file (st.pos + (i - 3)) := fun h3 hsig =>
        hwindow (hiff.mpr ⟨h3, hsig⟩)
      have hrest := scanLoop_spec hquiet n (i := i + 1) (by omega) (hbefore.succ fun h3 hsig =>
        absurd hsig (hnone h3))
      rw [recordsIn_skip hnone] at hrest
      exact hrest

end Scan

end CourseWork.Zip
