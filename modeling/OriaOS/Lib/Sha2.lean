import OriaOS.Lib.Blocks
import Mathlib

/-!
# SHA-256

The hash of FIPS 180-4 for messages of whole bytes: padding, the message schedule, the
compression function and the digest. The constants are the fractional parts of roots of primes.
-/

namespace OriaOS.Lib.Sha2

open Blocks

/-! ## Functions and constants -/

/-- `ROTR` -/
def rotr (n x : UInt32) : UInt32 := (x >>> n) ||| (x <<< (32 - n))

def ch (x y z : UInt32) : UInt32 := (x &&& y) ^^^ (~~~x &&& z)

def maj (x y z : UInt32) : UInt32 := (x &&& y) ^^^ (x &&& z) ^^^ (y &&& z)

def bigSigma0 (x : UInt32) : UInt32 := rotr 2 x ^^^ rotr 13 x ^^^ rotr 22 x

def bigSigma1 (x : UInt32) : UInt32 := rotr 6 x ^^^ rotr 11 x ^^^ rotr 25 x

def smallSigma0 (x : UInt32) : UInt32 := rotr 7 x ^^^ rotr 18 x ^^^ (x >>> 3)

def smallSigma1 (x : UInt32) : UInt32 := rotr 17 x ^^^ rotr 19 x ^^^ (x >>> 10)

/-- The first sixty-four primes. -/
def primes : List Nat :=
  [2, 3, 5, 7, 11, 13, 17, 19, 23, 29, 31, 37, 41, 43, 47, 53, 59, 61, 67, 71, 73, 79, 83, 89, 97,
    101, 103, 107, 109, 113, 127, 131, 137, 139, 149, 151, 157, 163, 167, 173, 179, 181, 191, 193,
    197, 199, 211, 223, 227, 229, 233, 239, 241, 251, 257, 263, 269, 271, 277, 281, 283, 293, 307,
    311]

/-- The first 32 bits of the fractional part of the cube root of a prime. -/
def K (t : Nat) : UInt32 := UInt32.ofNat (Nat.nthRoot 3 (primes.getD t 0 * 2 ^ 96))

/-- The first 32 bits of the fractional part of the square root of a prime. -/
def H0 (j : Nat) : UInt32 := UInt32.ofNat (Nat.nthRoot 2 (primes.getD j 0 * 2 ^ 64))

/-! ## The compression function -/

/-- The words of a hash value, and the working variables. -/
structure Words where
  (a b c d e f g h : UInt32)

/-- Word by word. -/
def Words.add (x y : Words) : Words :=
  ⟨x.a + y.a, x.b + y.b, x.c + y.c, x.d + y.d, x.e + y.e, x.f + y.f, x.g + y.g, x.h + y.h⟩

/-- The words of a block, the first byte of a word the most significant. -/
def blockWord (block : List UInt8) (t : Nat) : UInt32 :=
  (block.getD (4 * t) 0).toUInt32 <<< 24 ||| (block.getD (4 * t + 1) 0).toUInt32 <<< 16 |||
    (block.getD (4 * t + 2) 0).toUInt32 <<< 8 ||| (block.getD (4 * t + 3) 0).toUInt32

/-- The message schedule. -/
def schedule (M : Nat → UInt32) (t : Nat) : UInt32 :=
  if t < 16 then M t
  else smallSigma1 (schedule M (t - 2)) + schedule M (t - 7) + smallSigma0 (schedule M (t - 15)) +
    schedule M (t - 16)

/-- One round. -/
def round (v : Words) (k w : UInt32) : Words :=
  let t1 := v.h + bigSigma1 v.e + ch v.e v.f v.g + k + w
  let t2 := bigSigma0 v.a + maj v.a v.b v.c
  ⟨t1 + t2, v.a, v.b, v.c, v.d + t1, v.e, v.f, v.g⟩

/-- The working variables after a number of rounds. -/
def rounds (W : Nat → UInt32) (v : Words) : Nat → Words
  | 0 => v
  | t + 1 => round (rounds W v t) (K t) (W t)

/-- The hash value after one more block. -/
def compress (H : Words) (block : List UInt8) : Words :=
  H.add (rounds (schedule (blockWord block)) H 64)

/-! ## The hash -/

/-- The fewest zero bytes behind the first byte of the padding that leave eight bytes of a
block. -/
def zeros (len : Nat) : Nat := (119 - len % 64) % 64

/-- A number in eight bytes, the first the most significant. -/
def be64 (n : Nat) : List UInt8 := (List.range 8).map fun i => UInt8.ofNat (n / 256 ^ (7 - i))

/-- The message, a one bit, zero bits, and the number of its bits. -/
def pad (m : List UInt8) : List UInt8 :=
  m ++ [0x80] ++ List.replicate (zeros m.length) 0 ++ be64 (8 * m.length)

def initial : Words := ⟨H0 0, H0 1, H0 2, H0 3, H0 4, H0 5, H0 6, H0 7⟩

def wordBytes (x : UInt32) : List UInt8 :=
  [(x >>> 24).toUInt8, (x >>> 16).toUInt8, (x >>> 8).toUInt8, x.toUInt8]

def Words.bytes (x : Words) : List UInt8 :=
  wordBytes x.a ++ wordBytes x.b ++ wordBytes x.c ++ wordBytes x.d ++ wordBytes x.e ++
    wordBytes x.f ++ wordBytes x.g ++ wordBytes x.h

/-- The digest of a message. -/
def sha256 (m : List UInt8) : List UInt8 := (absorb 64 compress initial (pad m)).bytes

theorem zeros_fill (len : Nat) : (len + 1 + zeros len) % 64 = 56 := by
  rw [zeros]
  omega

@[simp] theorem length_be64 (n : Nat) : (be64 n).length = 8 := by
  rw [be64, List.length_map, List.length_range]

@[simp] theorem length_sha256 (m : List UInt8) : (sha256 m).length = 32 := rfl

theorem schedule_of_lt {M : Nat → UInt32} {t : Nat} (h : t < 16) : schedule M t = M t := by
  rw [schedule, if_pos h]

theorem schedule_of_le {M : Nat → UInt32} {t : Nat} (h : 16 ≤ t) :
    schedule M t = smallSigma1 (schedule M (t - 2)) + schedule M (t - 7) +
      smallSigma0 (schedule M (t - 15)) + schedule M (t - 16) := by
  rw [schedule, if_neg (Nat.not_lt.mpr h)]

end OriaOS.Lib.Sha2
