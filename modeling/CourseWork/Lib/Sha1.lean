import CourseWork.Lib.CLib

/-!
# SHA-1

An executable SHA-1, for running code that takes the hash as a parameter on
concrete inputs.
-/

namespace Sha1
open CLib

/-- Rotate a 32-bit word to the left. -/
def rotl (x n : UInt32) : UInt32 := (x <<< n) ||| (x >>> (32 - n))

/-- The big-endian bytes of a 32-bit word. -/
def wordBytes (w : UInt32) : Bytes :=
  [(w >>> 24).toUInt8, (w >>> 16).toUInt8, (w >>> 8).toUInt8, w.toUInt8]

/-- The words of a byte string whose length is a multiple of four. -/
def words : Bytes → List UInt32
  | a :: b :: c :: d :: s =>
    (a.toUInt32 <<< 24 ||| b.toUInt32 <<< 16 ||| c.toUInt32 <<< 8 ||| d.toUInt32) :: words s
  | _ => []

/-- The message with its padding and its length in bits. -/
def pad (s : Bytes) : Bytes :=
  s ++ 128 :: List.replicate ((119 - s.length % 64) % 64) 0 ++
    (wordBytes (UInt32.ofNat (s.length / 2 ^ 29)) ++ wordBytes (UInt32.ofNat (8 * s.length)))

/-- The five chaining words. -/
structure State where
  a : UInt32
  b : UInt32
  c : UInt32
  d : UInt32
  e : UInt32

def State.init : State := ⟨0x67452301, 0xEFCDAB89, 0x98BADCFE, 0x10325476, 0xC3D2E1F0⟩

/-- The round function and the constant of round `t`. -/
def choose (t : Nat) (x y z : UInt32) : UInt32 × UInt32 :=
  if t < 20 then ((x &&& y) ||| (~~~x &&& z), 0x5A827999)
  else if t < 40 then (x ^^^ y ^^^ z, 0x6ED9EBA1)
  else if t < 60 then ((x &&& y) ||| (x &&& z) ||| (y &&& z), 0x8F1BBCDC)
  else (x ^^^ y ^^^ z, 0xCA62C1D6)

/-- `n` rounds from round `t` on. The window `w` holds the next sixteen schedule words. -/
def rounds : Nat → Nat → List UInt32 → State → State
  | 0, _, _, st => st
  | n + 1, t, w, st =>
    let word := w.headD 0
    let next := rotl (w.getD 13 0 ^^^ w.getD 8 0 ^^^ w.getD 2 0 ^^^ word) 1
    let (f, k) := choose t st.b st.c st.d
    let temp := rotl st.a 5 + f + st.e + word + k
    rounds n (t + 1) (w.drop 1 ++ [next]) ⟨temp, st.a, rotl st.b 30, st.c, st.d⟩

def State.add (s t : State) : State := ⟨s.a + t.a, s.b + t.b, s.c + t.c, s.d + t.d, s.e + t.e⟩

/-- The compression of `n` blocks of sixteen words. -/
def blocks : Nat → List UInt32 → State → State
  | 0, _, st => st
  | n + 1, w, st => blocks n (w.drop 16) (st.add (rounds 80 0 (w.take 16) st))

/-- SHA-1 of a byte string: 20 bytes. -/
def sha1 (s : Bytes) : Bytes :=
  let p := pad s
  let st := blocks (p.length / 64) (words p) .init
  wordBytes st.a ++ wordBytes st.b ++ wordBytes st.c ++ wordBytes st.d ++ wordBytes st.e

example : sha1 (ascii "abc") =
    [0xA9, 0x99, 0x3E, 0x36, 0x47, 0x06, 0x81, 0x6A, 0xBA, 0x3E,
      0x25, 0x71, 0x78, 0x50, 0xC2, 0x6C, 0x9C, 0xD0, 0xD8, 0x9D] := by decide +kernel

end Sha1
