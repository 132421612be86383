import CourseWork.Crc.CheckCrc32
import CourseWork.Lib.Burst

/-!
# Errors that check_crc32 shows

Two files whose bits differ, but only within 32 consecutive ones, are printed with different
lines.
-/

namespace CourseWork.Crc
open CLib

/-- The bits of a file, the lowest bit of each byte first. -/
def fileBits (content : Bytes) : List Bool := Crc.messageBits (content.map UInt8.toBitVec)

theorem hex8_inj {m n : UInt32} (h : hex8 m = hex8 n) : m = n := by
  rw [← UInt32.toNat_inj, ← hexValue_hex8, h, hexValue_hex8]

theorem crcLine_inj {x y : Bytes} (h : crcLine x = crcLine y) : crc32 x = crc32 y := by
  have hcrc : (⟨crc32 x⟩ : UInt32) = ⟨crc32 y⟩ := hex8_inj (List.append_cancel_right h)
  exact congrArg UInt32.toBitVec hcrc

/-- Whatever was printed for a regular file is its line. -/
theorem main_stdout {system : System} {program file content : Bytes}
    (hopen : system.openFile file = some (some ⟨true, content⟩))
    (hsuccess : (main system [program, file]).success = true) :
    (main system [program, file]).stdout = crcLine content := by
  rw [main, if_neg (by simp), show [program, file].getD 1 [] = file from rfl, hopen] at hsuccess ⊢
  refine ((checkFile_cases system content).resolve_right fun hfail => ?_).1
  rw [show (checkFile system content).success = true from hsuccess] at hfail
  cases hfail.2

/-- A burst of at most 32 bits in a file changes the line that is printed, whatever the page
size is and wherever in the file the burst is, also across chunks. -/
theorem burst_detected {system system' : System} {program file x y : Bytes}
    (hopen : system.openFile file = some (some ⟨true, x⟩))
    (hopen' : system'.openFile file = some (some ⟨true, y⟩))
    (hsuccess : (main system [program, file]).success = true)
    (hsuccess' : (main system' [program, file]).success = true) {front u v back : List Bool}
    (hx : fileBits x = front ++ u ++ back) (hy : fileBits y = front ++ v ++ back)
    (hlength : u.length = v.length) (hburst : u.length ≤ 32) (hne : u ≠ v) :
    (main system [program, file]).stdout ≠ (main system' [program, file]).stdout := by
  rw [main_stdout hopen hsuccess, main_stdout hopen' hsuccess']
  intro h
  exact Crc.check_ne_of_burst (by decide) (by decide) 0xffffffff 0xffffffff hx hy hlength hburst hne
    (crcLine_inj h)

/-- Two bytes, changed in the last bit of the first one and in the first bit of the second one. -/
theorem burst_detected_two :
    (main ⟨fun _ => some (some ⟨true, [0x80, 0x01]⟩), 4096, fun _ => false, fun _ => false, false⟩
      [[], []]).stdout ≠
    (main ⟨fun _ => some (some ⟨true, [0, 0]⟩), 4096, fun _ => false, fun _ => false, false⟩
      [[], []]).stdout :=
  burst_detected rfl rfl (by decide +kernel) (by decide +kernel)
    (show fileBits _ = List.replicate 7 false ++ [true, true] ++ List.replicate 7 false by decide)
    (show fileBits _ = List.replicate 7 false ++ [false, false] ++ List.replicate 7 false by decide)
    rfl (by decide) (by decide)

end CourseWork.Crc
