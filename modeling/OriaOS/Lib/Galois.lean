import Mathlib.Logic.Function.Iterate

/-!
# Galois/counter mode

The authenticated encryption over an arbitrary cipher of 128-bit blocks, by its
definition. A block is a bit string whose first bit is the highest. The product of two
blocks is that of the field with 2^128 elements, and the hash of a list of blocks is the
value of a polynomial at the hash key.
-/

namespace OriaOS.Lib.Galois

abbrev Bits := BitVec 128

/-! ## The product of blocks -/

/-- The lower terms of the modulus, `11100001` and zeros. -/
def reduction : Bits := 0xE1 <<< 120

/-- The product with the indeterminate. -/
def double (v : Bits) : Bits := if v.getMsbD 127 then v >>> 1 ^^^ reduction else v >>> 1

/-- The turn of bit `i` of the first factor. -/
def mulStep (x : Bits) (zv : Bits × Bits) (i : Nat) : Bits × Bits :=
  (if x.getMsbD i then zv.1 ^^^ zv.2 else zv.1, double zv.2)

def mul (x y : Bits) : Bits := ((List.range 128).foldl (mulStep x) (0, y)).1

/-- Both runs carry the same second component. -/
theorem foldl_mulStep_xor (x x' z z' v : Bits) (l : List Nat) :
    (l.foldl (mulStep (x ^^^ x')) (z ^^^ z', v)).1 =
      (l.foldl (mulStep x) (z, v)).1 ^^^ (l.foldl (mulStep x') (z', v)).1 := by
  induction l generalizing z z' v with
  | nil => rfl
  | cons i l ih =>
      simp only [List.foldl_cons, mulStep]
      rw [← ih]
      congr 3
      rw [BitVec.getMsbD_xor]
      cases x.getMsbD i <;> cases x'.getMsbD i
      · rfl
      · exact BitVec.xor_assoc z z' v
      · exact (calc z ^^^ z' ^^^ v
          _ = z ^^^ (v ^^^ z') := by rw [BitVec.xor_assoc, BitVec.xor_comm z' v]
          _ = z ^^^ v ^^^ z' := (BitVec.xor_assoc z v z').symm)
      · exact (calc z ^^^ z'
          _ = z ^^^ (v ^^^ v) ^^^ z' := by rw [BitVec.xor_self, BitVec.xor_zero]
          _ = z ^^^ v ^^^ (z' ^^^ v) := by
            rw [BitVec.xor_comm z' v, ← BitVec.xor_assoc, ← BitVec.xor_assoc])

theorem mul_xor (x x' h : Bits) : mul (x ^^^ x') h = mul x h ^^^ mul x' h := by
  have hrun := foldl_mulStep_xor x x' 0 0 h (List.range 128)
  rwa [BitVec.xor_self] at hrun

@[simp] theorem zero_mul (h : Bits) : mul 0 h = 0 := by
  have hsum := mul_xor 0 0 h
  rw [BitVec.xor_self, BitVec.xor_self] at hsum
  exact hsum

/-! ## The hash -/

/-- The hash of a list of blocks under the key `h`. -/
def hash (h : Bits) (xs : List Bits) : Bits := xs.foldl (fun y x => mul (y ^^^ x) h) 0

/-- The value at `h` of the polynomial with these coefficients, the highest first, and
without a constant term. -/
def polynomial (h : Bits) : List Bits → Bits
  | [] => 0
  | x :: xs => (mul · h)^[xs.length + 1] x ^^^ polynomial h xs

theorem iterate_mul_xor (h x y : Bits) (n : Nat) :
    (mul · h)^[n] (x ^^^ y) = (mul · h)^[n] x ^^^ (mul · h)^[n] y := by
  induction n generalizing x y with
  | zero => rfl
  | succ n ih => rw [Function.iterate_succ_apply, mul_xor, ih]; rfl

theorem hash_from (h y : Bits) (xs : List Bits) :
    xs.foldl (fun y x => mul (y ^^^ x) h) y = (mul · h)^[xs.length] y ^^^ polynomial h xs := by
  induction xs generalizing y with
  | nil => exact (BitVec.xor_zero).symm
  | cons x xs ih =>
      calc (x :: xs).foldl (fun y x => mul (y ^^^ x) h) y
          _ = (mul · h)^[xs.length] (mul (y ^^^ x) h) ^^^ polynomial h xs := ih _
          _ = (mul · h)^[xs.length + 1] (y ^^^ x) ^^^ polynomial h xs := rfl
          _ = (mul · h)^[xs.length + 1] y ^^^ ((mul · h)^[xs.length + 1] x ^^^
                polynomial h xs) := by
            rw [iterate_mul_xor, BitVec.xor_assoc]

/-- The hash is the value of the polynomial of the blocks at the key. -/
theorem hash_eq_polynomial (h : Bits) (xs : List Bits) : hash h xs = polynomial h xs := by
  have hzero : (mul · h)^[xs.length] 0 = 0 := Function.iterate_fixed (zero_mul h) _
  rw [hash, hash_from, hzero]
  exact BitVec.zero_xor

/-! ## Texts of bytes -/

theorem length_firstBits (f : Nat → Bool) : ((List.range 128).map f).length = 128 := by
  rw [List.length_map, List.length_range]

/-- The block of the first 128 bits. -/
def ofBits (f : Nat → Bool) : Bits :=
  (BitVec.ofBoolListBE ((List.range 128).map f)).cast (length_firstBits f)

theorem getMsbD_ofBits (f : Nat → Bool) (k : Nat) :
    (ofBits f).getMsbD k = (decide (k < 128) && f k) := by
  rw [ofBits, BitVec.getMsbD_cast, BitVec.getMsbD_ofBoolListBE]
  by_cases hk : k < 128
  · simp [hk]
  · simp [hk]

/-- The first sixteen bytes of a text, filled with zeros. -/
def ofBytes (text : List UInt8) : Bits :=
  ofBits fun k => (text.getD (k / 8) 0).toBitVec.getMsbD (k % 8)

/-- Byte `i` of a block, the highest first. -/
def byte (b : Bits) (i : Nat) : UInt8 := ⟨b.extractLsb' (8 * (15 - i)) 8⟩

@[simp] theorem byte_ofBytes (text : List UInt8) {i : Nat} (hi : i < 16) :
    byte (ofBytes text) i = text.getD i 0 := by
  apply UInt8.toBitVec_inj.mp
  apply BitVec.eq_of_getMsbD_eq
  intro k hk
  have hindex : 128 - (8 * (15 - i) + 8 - k) = 8 * i + k := by omega
  rw [byte, ofBytes, BitVec.getMsbD_extractLsb', hindex, getMsbD_ofBits]
  simp [hk, show (8 * i + k) / 8 = i by omega, show (8 * i + k) % 8 = k by omega,
    show 8 * (15 - i) + 8 - k ≤ 128 by omega, show 8 * i + k < 128 by omega]

/-- The blocks of a text, the last one filled with zeros. -/
def blocks (text : List UInt8) : List Bits :=
  (List.range ((text.length + 15) / 16)).map fun i => ofBytes (text.drop (16 * i))

/-- The lengths of both texts in bits. -/
def lengths (aad cipher : Nat) : Bits :=
  BitVec.ofNat 64 (8 * aad) ++ BitVec.ofNat 64 (8 * cipher)

/-- What is hashed for additional data and a ciphertext. -/
def hashed (aad cipher : List UInt8) : List Bits :=
  blocks aad ++ blocks cipher ++ [lengths aad.length cipher.length]

/-! ## Encryption -/

section Encryption
variable (ciph : Bits → Bits) (iv : BitVec 96)

/-- The block of counters behind `b`: the last 32 bits are counted up. -/
def inc32 (b : Bits) : Bits := b.extractLsb' 32 96 ++ (b.extractLsb' 0 32 + 1)

theorem inc32_append (n : BitVec 96) (c : BitVec 32) : inc32 (n ++ c) = n ++ (c + 1) := by
  rw [inc32, BitVec.extractLsb'_append_eq_left, BitVec.extractLsb'_append_eq_right]

theorem iterate_inc32_append (n : BitVec 96) (c : BitVec 32) (k : Nat) :
    inc32^[k] (n ++ c) = n ++ (c + BitVec.ofNat 32 k) := by
  induction k generalizing c with
  | zero => exact congrArg (n ++ ·) (BitVec.add_zero c).symm
  | succ k ih =>
      rw [Function.iterate_succ_apply, inc32_append, ih]
      congr 1
      rw [BitVec.add_assoc, Nat.add_comm k 1, BitVec.ofNat_add]
      rfl

/-- Counter mode from the counter block `icb` on. -/
def gctr (icb : Bits) (text : List UInt8) : List UInt8 :=
  text.mapIdx fun k x => x ^^^ byte (ciph (inc32^[k / 16] icb)) (k % 16)

/-- The block in front of the counter blocks. -/
def preCounter : Bits := iv ++ (1 : BitVec 32)

/-- The hash key is the cipher of the zero block. -/
def ghash (aad cipher : List UInt8) : Bits := hash (ciph 0) (hashed aad cipher)

def tag (aad cipher : List UInt8) : Bits := ghash ciph aad cipher ^^^ ciph (preCounter iv)

def ciphertext (text : List UInt8) : List UInt8 := gctr ciph (inc32 (preCounter iv)) text

@[simp] theorem ciphertext_length (text : List UInt8) :
    (ciphertext ciph iv text).length = text.length := by
  simp [ciphertext, gctr]

end Encryption

end OriaOS.Lib.Galois
