import CourseWork.Zip.Alignment

/-!
# Names of ZIP records

The name that `extract_files` reports against the one that the header announces. The two
bytes of its length are joined by OR, without a shift of the second one.
-/

namespace CourseWork.Zip
open CLib

/-- The length of the name by the header at `s`: a 16-bit number in little-endian order. -/
def realLength (file : Input) (s : Nat) : Nat :=
  (file.byte (s + 26)).toNat + 256 * (file.byte (s + 27)).toNat

/-- The name behind the header at `s`. -/
def realName (file : Input) (s : Nat) : Bytes :=
  (List.range (realLength file s)).map fun n => file.byte (s + 30 + n)

section Lengths

variable {file : Input} {s : Nat}

/-- A second length byte that is 0 makes no difference. -/
theorem nameLength_eq (h : file.byte (s + 27) = 0) : nameLength file s = realLength file s := by
  rw [nameLength, realLength, h, UInt8.or_zero]
  rfl

/-- With another one the length is too small. -/
theorem nameLength_lt (h : file.byte (s + 27) ≠ 0) : nameLength file s < realLength file s := by
  have hlt : nameLength file s < 256 := UInt8.toNat_lt _
  have hpos : (file.byte (s + 27)).toNat ≠ 0 := fun hzero => h (UInt8.toNat_inj.mp hzero)
  unfold realLength
  omega

theorem nameLength_le (file : Input) (s : Nat) : nameLength file s ≤ realLength file s := by
  by_cases h : file.byte (s + 27) = 0
  · exact (nameLength_eq h).le
  · exact (nameLength_lt h).le

/-- What is printed for a record is its name exactly if the name has less than 256 bytes, none
of them 0. -/
theorem printed_iff : cstr (recordAt file s).name = realName file s ↔
    file.byte (s + 27) = 0 ∧ 0 ∉ realName file s := by
  constructor
  · intro h
    refine ⟨?_, fun hmem => ?_⟩
    · by_contra hne
      have hlt := nameLength_lt hne
      have hlen := congrArg List.length h
      have hle := (cstr_isPrefix (recordAt file s).name).length_le
      rw [recordAt, List.length_map, List.length_range] at hle
      rw [recordAt, realName, List.length_map, List.length_range] at hlen
      omega
    · rw [← h] at hmem
      exact not_mem_cstr _ hmem
  · rintro ⟨hzero, hnul⟩
    have hname : (recordAt file s).name = realName file s := by
      rw [recordAt, realName, nameLength_eq hzero]
    rw [hname]
    exact List.takeWhile_eq_self_iff.mpr fun c hc => bne_iff_ne.mpr fun heq => hnul (heq ▸ hc)

end Lengths

/-! ## Reads -/

variable {file : Input} {garbage : Nat → UInt8} {st : ReadState}

theorem Reads.quiet (h : Reads file (firstRead garbage) st) :
    Quiet file st.pos (st.bytes file) st.window := by
  induction h with
  | refl => exact quiet_of_signature (.inl rfl)
  | tail _ hstep ih => exact quiet_of_readOnce ih hstep.2

/-- A record whose header and name lie in the buffer is stored inside `f_name` and reported, and
what is printed for it is its name exactly if that has less than 256 bytes, none of them 0. -/
theorem record_name_iff (hreads : Reads file (firstRead garbage) st) {k s : Nat}
    (hs : s = st.pos + k) (hsig : Signature file s)
    (hinside : s + 30 + realLength file s ≤ st.stop file) :
    ∃ name : Bytes, name.length + 1 ≤ fNameSize ∧
      (∀ n records window, moveWindow window (file.byte (s + 3)) = zipSignature →
        scanLoop (st.read file) (st.bytes file) st.pos (n + 1) (k + 3) window records =
          scanLoop (st.read file) (st.bytes file) st.pos n (k + 3 + 1) zipSignature
            (records ++ [⟨s, name⟩])) ∧
      (∀ st', readOnce file st = .ok st' → (∀ c, Cut file st.pos (st.stop file) c → s < c) →
        ⟨s, name⟩ ∈ st'.records) ∧
      (cstr name = realName file s ↔ file.byte (s + 27) = 0 ∧ 0 ∉ realName file s) := by
  have hstop : st.stop file = st.pos + st.bytes file := rfl
  have hle := nameLength_le file s
  have hend : recordEnd file s ≤ st.stop file := by
    unfold recordEnd
    omega
  have hseen : seenLength file st s = nameLength file s :=
    seenLength_of_lt (by omega) (by omega)
  refine ⟨(recordAt file s).name, ?_, fun n records window hwindow => ?_,
    fun st' hread hfirst => ?_, printed_iff⟩
  · rw [recordAt, List.length_map, List.length_range]
    exact UInt8.toNat_lt _
  · rw [scanLoop_found hs (by omega) (by rwa [hs, Nat.add_assoc] at hwindow), hseen,
      if_neg (by omega), if_neg (fun hover => by have := hover.1; omega), if_neg (by omega)]
    rfl
  · have hresult := readOnce_spec hreads.quiet
    rw [hread] at hresult
    cases hresult with
    | complete _ =>
      refine List.mem_append_right _ (mem_recordsIn.mpr ⟨s, by omega, by omega, hsig, hend, rfl⟩)
    | cut h _ =>
      have hlt := hfirst _ h
      exact List.mem_append_right _ (mem_recordsIn.mpr ⟨s, by omega, hlt, hsig, hend, rfl⟩)

/-- A file of one record, whose name consists of letters `a`. -/
def oneRecord (low high : UInt8) (size : Nat) : Input where
  size := size
  byte k := ([0x50, 0x4b, 3, 4] ++ List.replicate 22 0 ++ [low, high, 0, 0] : Bytes).getD k 97

theorem record_name_iff_one : ∃ name : Bytes, name.length + 1 ≤ fNameSize ∧
    cstr name = realName (oneRecord 1 0 31) 0 := by
  obtain ⟨name, hlen, _, _, hiff⟩ := @record_name_iff (oneRecord 1 0 31) (fun _ => 0)
    (firstRead fun _ => 0) .refl 0 0 rfl (by decide) (by decide)
  exact ⟨name, hlen, hiff.mpr (by decide)⟩

/-- A name of 256 bytes is cut to the first one. -/
theorem wide_name_cut : Signature (oneRecord 0 1 286) 0 ∧
    30 + realLength (oneRecord 0 1 286) 0 = (oneRecord 0 1 286).size ∧
    (extractFiles (oneRecord 0 1 286) fun _ => 0).map Extraction.records = .ok [⟨0, [97]⟩] ∧
    cstr [97] ≠ realName (oneRecord 0 1 286) 0 := by
  refine ⟨by decide, by decide, ?_, ?_⟩
  · decide +kernel
  · decide +kernel

end CourseWork.Zip
