import OriaOS.Lib.Galois
import OriaOS.Tls.Gcm

/-!
# The hash of the authenticated encryption

`crypto.c` against the definition of the mode. Counter mode is the specified one, and
`gcm_mul` into a place of its own is the specified product. `ghash` multiplies in
place: it agrees with the specified hash where that is zero.
-/

namespace OriaOS.Tls

open OriaOS.Lib

/-- A block as a bit string. -/
def blockBits (b : Block) : Galois.Bits := Galois.ofBytes b.toList

def bitsBlock (b : Galois.Bits) : Block := Vector.ofFn fun k => Galois.byte b k

/-- A block cipher on bit strings. -/
def cipherBits (aes : Block → Block) (b : Galois.Bits) : Galois.Bits :=
  blockBits (aes (bitsBlock b))

theorem getMsbD_blockBits (b : Block) {k : Nat} (hk : k < 128) :
    (blockBits b).getMsbD k = (b[k / 8]).toBitVec.getMsbD (k % 8) := by
  rw [blockBits, Galois.ofBytes, Galois.getMsbD_ofBits]
  simp [hk, show k / 8 < 16 by omega]

@[simp] theorem bitsBlock_blockBits (b : Block) : bitsBlock (blockBits b) = b := by
  apply Vector.ext
  intro i hi
  rw [bitsBlock, Vector.getElem_ofFn, blockBits, Galois.byte_ofBytes _ hi]
  simp [hi]

theorem blockBits_inj {a b : Block} (h : blockBits a = blockBits b) : a = b := by
  rw [← bitsBlock_blockBits a, h, bitsBlock_blockBits]

/-! ## The product -/

theorem blockBits_zeroBlock : blockBits zeroBlock = 0 := by
  apply BitVec.eq_of_getMsbD_eq
  intro k hk
  rw [getMsbD_blockBits _ hk]
  simp [zeroBlock]

theorem blockBits_xorBlock (x y : Block) :
    blockBits (xorBlock x y) = blockBits x ^^^ blockBits y := by
  apply BitVec.eq_of_getMsbD_eq
  intro k hk
  rw [BitVec.getMsbD_xor, getMsbD_blockBits _ hk, getMsbD_blockBits _ hk,
    getMsbD_blockBits _ hk]
  simp [xorBlock]

/-- The first bit of a byte shifted right comes from the byte before it. -/
theorem getMsbD_shifted (a b : UInt8) {t : Nat} (ht : t < 8) :
    ((b >>> 1) ||| (a <<< 7)).toBitVec.getMsbD t =
      if t = 0 then a.toBitVec.getMsbD 7 else b.toBitVec.getMsbD (t - 1) := by
  interval_cases t <;> simp [BitVec.getMsbD_eq_getLsbD]

theorem getMsbD_shiftRight (b : UInt8) {t : Nat} (ht : t < 8) :
    (b >>> 1).toBitVec.getMsbD t = (decide (0 < t) && b.toBitVec.getMsbD (t - 1)) := by
  interval_cases t <;> simp [BitVec.getMsbD_eq_getLsbD]

theorem getMsbD_reduction {k : Nat} (hk : k < 128) :
    Galois.reduction.getMsbD k = (decide (k < 8) && (0xe1 : UInt8).toBitVec.getMsbD k) := by
  decide +revert

/-- The last bit of a byte. -/
theorem and_one_eq_zero_iff (b : UInt8) : b &&& 1 = 0 ↔ b.toBitVec.getMsbD 7 = false := by
  revert b
  decide +kernel

/-- The bits of a block of the doubling, the modulus apart. -/
theorem getMsbD_gcmDouble (v : Block) {k : Nat} (hk : k < 128) :
    (blockBits (gcmDouble v)).getMsbD k =
      ((decide (0 < k) && (blockBits v).getMsbD (k - 1)) ^^
        (decide (k < 8) && (if v[15] &&& 1 = 0 then 0 else 0xe1 : UInt8).toBitVec.getMsbD k)) := by
  rw [getMsbD_blockBits _ hk, getMsbD_blockBits v (by omega : k - 1 < 128)]
  by_cases hfirst : k < 8
  · have hbyte : k / 8 = 0 := by omega
    have hbyte' : (k - 1) / 8 = 0 := by omega
    simp only [gcmDouble, Vector.getElem_ofFn, hbyte, hbyte', if_pos, UInt8.toBitVec_xor,
      BitVec.getMsbD_xor, Nat.mod_eq_of_lt hfirst, Nat.mod_eq_of_lt (by omega : k - 1 < 8)]
    rw [getMsbD_shiftRight _ hfirst, decide_eq_true hfirst, Bool.true_and]
  · have hbyte : k / 8 ≠ 0 := by omega
    simp only [gcmDouble, Vector.getElem_ofFn, if_neg hbyte]
    rw [getMsbD_shifted _ _ (Nat.mod_lt _ (by decide)), decide_eq_false hfirst, Bool.false_and,
      Bool.xor_false, decide_eq_true (by omega : 0 < k), Bool.true_and]
    by_cases hedge : k % 8 = 0
    · simp only [if_pos hedge, show (k - 1) / 8 = k / 8 - 1 by omega,
        show (k - 1) % 8 = 7 by omega]
    · simp only [if_neg hedge, show (k - 1) / 8 = k / 8 by omega,
        show (k - 1) % 8 = k % 8 - 1 by omega]
      rfl

theorem blockBits_gcmDouble (v : Block) :
    blockBits (gcmDouble v) = Galois.double (blockBits v) := by
  have hlast : (blockBits v).getMsbD 127 = (v[15]).toBitVec.getMsbD 7 :=
    getMsbD_blockBits v (by decide)
  apply BitVec.eq_of_getMsbD_eq
  intro k hk
  have hshift : (blockBits v >>> 1).getMsbD k =
      (decide (0 < k) && (blockBits v).getMsbD (k - 1)) := by
    rw [BitVec.getMsbD_ushiftRight]
    cases k with
    | zero => rfl
    | succ k => simp [hk]
  rw [getMsbD_gcmDouble v hk, Galois.double, hlast]
  by_cases hbit : v[15] &&& 1 = 0
  · rw [(and_one_eq_zero_iff _).mp hbit, if_pos hbit, if_neg (by decide), hshift]
    simp
  · have hset : (v[15]).toBitVec.getMsbD 7 = true := by
      rw [← Bool.not_eq_false]
      exact fun h => hbit ((and_one_eq_zero_iff _).mpr h)
    rw [if_neg hbit, if_pos hset, BitVec.getMsbD_xor, hshift, getMsbD_reduction hk]

/-- A pair of blocks as bit strings. -/
def pairBits (zv : Block × Block) : Galois.Bits × Galois.Bits := (blockBits zv.1, blockBits zv.2)

theorem bit_eq_zero_iff (b : UInt8) {t : Nat} (ht : t < 8) :
    (b >>> UInt8.ofNat (7 - t)) &&& 1 = 0 ↔ b.toBitVec.getMsbD t = false := by
  rw [and_one_eq_zero_iff]
  interval_cases t <;> simp [BitVec.getMsbD_eq_getLsbD]

/-- A turn of the inner loop is a turn of the specified product. -/
theorem pairBits_turn (x : Block) (i : Fin 16) {t : Nat} (ht : t < 8) (zv : Block × Block) :
    pairBits (if (x[i] >>> UInt8.ofNat (7 - t)) &&& 1 = 0 then zv.1 else xorBlock zv.1 zv.2,
        gcmDouble zv.2) =
      Galois.mulStep (blockBits x) (pairBits zv) (8 * i.val + t) := by
  have hbit : (blockBits x).getMsbD (8 * i.val + t) = (x[i]).toBitVec.getMsbD t := by
    rw [getMsbD_blockBits x (by omega)]
    simp only [show (8 * i.val + t) / 8 = i.val by omega, show (8 * i.val + t) % 8 = t by omega]
    rfl
  unfold pairBits Galois.mulStep
  rw [hbit, blockBits_gcmDouble]
  by_cases hzero : (x[i] >>> UInt8.ofNat (7 - t)) &&& 1 = 0
  · rw [if_pos hzero, (bit_eq_zero_iff _ ht).mp hzero]
    rfl
  · have hset : (x[i]).toBitVec.getMsbD t = true :=
      Bool.eq_true_of_not_eq_false fun h => hzero ((bit_eq_zero_iff _ ht).mpr h)
    rw [if_neg hzero, hset, blockBits_xorBlock]
    rfl

/-- A byte of the first factor takes eight turns. -/
theorem pairBits_gcmMulByte (x : Block) (i : Fin 16) (zv : Block × Block) :
    pairBits (gcmMulByte (getElem x i i.isLt) zv) =
      ((List.range 8).map (8 * i.val + ·)).foldl (Galois.mulStep (blockBits x)) (pairBits zv) := by
  have hrun : ∀ (l : List Nat), (∀ t ∈ l, t < 8) → ∀ (zv : Block × Block),
      pairBits ((l.map fun t => UInt8.ofNat (7 - t)).foldl (fun zv j =>
          (if (x[i] >>> j) &&& 1 = 0 then zv.1 else xorBlock zv.1 zv.2, gcmDouble zv.2)) zv) =
        (l.map (8 * i.val + ·)).foldl (Galois.mulStep (blockBits x)) (pairBits zv) := by
    intro l
    induction l with
    | nil => exact fun _ _ => rfl
    | cons t l ih =>
        intro hl zv
        rw [List.map_cons, List.foldl_cons, List.map_cons, List.foldl_cons,
          ih (fun t ht => hl t (List.mem_cons_of_mem _ ht)), pairBits_turn x i (hl t (by simp))]
  exact hrun (List.range 8) (fun t ht => List.mem_range.mp ht) zv

/-- Into a place of its own `gcm_mul` stores the product. -/
theorem blockBits_gcmMul (x y : Block) :
    blockBits (gcmMul false x y) = Galois.mul (blockBits x) (blockBits y) := by
  have hrun : ∀ (l : List (Fin 16)) (zv : Block × Block),
      pairBits (l.foldl (fun zv i => gcmMulByte (if false then zv.1[i] else x[i]) zv) zv) =
        (l.flatMap fun i => (List.range 8).map (8 * i.val + ·)).foldl
          (Galois.mulStep (blockBits x)) (pairBits zv) := by
    intro l
    induction l with
    | nil => exact fun _ => rfl
    | cons i l ih =>
        intro zv
        rw [List.foldl_cons, List.flatMap_cons, List.foldl_append, ih, if_neg (by decide),
          pairBits_gcmMulByte]
  have hturns : ((List.finRange 16).flatMap fun i => (List.range 8).map (8 * i.val + ·)) =
      List.range 128 := by decide
  calc blockBits (gcmMul false x y)
      _ = ((List.range 128).foldl (Galois.mulStep (blockBits x)) (pairBits (zeroBlock, y))).1 := by
        rw [← hturns, ← hrun]
        rfl
      _ = Galois.mul (blockBits x) (blockBits y) := by
        rw [Galois.mul, pairBits, blockBits_zeroBlock]

/-! ## Counter mode -/

/-- The nonce as a bit string. -/
def nonceBits (iv : Nonce) : BitVec 96 := (Galois.ofBytes iv.toList).extractLsb' 32 96

theorem getMsbD_nonceBits (iv : Nonce) {k : Nat} (hk : k < 96) :
    (nonceBits iv).getMsbD k = (iv[k / 8]).toBitVec.getMsbD (k % 8) := by
  rw [nonceBits, BitVec.getMsbD_extractLsb', Galois.ofBytes, Galois.getMsbD_ofBits]
  simp [show 128 - (32 + 96 - k) = k by omega, hk, show k / 8 < 12 by omega,
    show 32 + 96 - k ≤ 128 by omega, show k < 128 by omega]

theorem getMsbD_wordByte (w : UInt32) {r t : Nat} (hr : r < 4) (ht : t < 8) :
    (wordByte w r).toBitVec.getMsbD t = w.toBitVec.getMsbD (8 * r + t) := by
  interval_cases r <;> interval_cases t <;> simp [wordByte, BitVec.getMsbD_eq_getLsbD]

theorem blockBits_ctrBlock (iv : Nonce) (ctr : UInt32) :
    blockBits (ctrBlock iv ctr) = nonceBits iv ++ ctr.toBitVec := by
  apply BitVec.eq_of_getMsbD_eq
  intro k hk
  rw [getMsbD_blockBits _ hk, BitVec.getMsbD_append]
  by_cases hiv : k < 96
  · simp [ctrBlock, hiv, getMsbD_nonceBits iv hiv, show k / 8 < 12 by omega]
  · have hpos : 8 * (k / 8 - 12) + k % 8 = k - 96 := by omega
    simp only [ctrBlock, Vector.getElem_ofFn, dif_neg (show ¬ k / 8 < 12 by omega)]
    rw [getMsbD_wordByte _ (by omega) (Nat.mod_lt _ (by decide)), hpos, if_pos (by omega)]

@[simp] theorem byte_blockBits (b : Block) {i : Nat} (hi : i < 16) :
    Galois.byte (blockBits b) i = b[i]! := by
  rw [blockBits, Galois.byte_ofBytes _ hi]
  simp [hi]

/-- Counter mode behind the block of the tag is the specified one. -/
theorem gcmCtr_eq (aes : Block → Block) (iv : Nonce) (buf : Bytes) :
    gcmCtr aes iv buf 1 = Galois.ciphertext (cipherBits aes) (nonceBits iv) buf := by
  apply List.ext_getElem
  · simp
  intro k hk hk'
  have hblock : Galois.inc32^[k / 16] (Galois.inc32 (Galois.preCounter (nonceBits iv))) =
      blockBits (ctrBlock iv (1 + 1 + UInt32.ofNat (k / 16))) := by
    rw [Galois.preCounter, Galois.inc32_append, Galois.iterate_inc32_append, blockBits_ctrBlock]
    rfl
  simp only [gcmCtr, Galois.ciphertext, Galois.gctr, List.getElem_mapIdx]
  rw [hblock, cipherBits, bitsBlock_blockBits, byte_blockBits _ (Nat.mod_lt _ (by decide))]

/-! ## The tag -/

/-- The hash is left out of the tag. -/
theorem blockBits_gcmTag (aes : Block → Block) (iv : Nonce) (aad cipher : Bytes) :
    blockBits (gcmTag aes iv aad cipher) = cipherBits aes (Galois.preCounter (nonceBits iv)) := by
  have hblock : Galois.preCounter (nonceBits iv) = blockBits (ctrBlock iv 1) := by
    rw [Galois.preCounter, blockBits_ctrBlock]
    rfl
  rw [gcmTag_eq, hblock, cipherBits, bitsBlock_blockBits]

/-- The computed tag is the specified one exactly where the hash vanishes. -/
theorem blockBits_gcmTag_iff (aes : Block → Block) (iv : Nonce) (aad cipher : Bytes) :
    blockBits (gcmTag aes iv aad cipher) =
        Galois.tag (cipherBits aes) (nonceBits iv) aad cipher ↔
      Galois.ghash (cipherBits aes) aad cipher = 0 := by
  rw [blockBits_gcmTag, Galois.tag]
  constructor
  · intro h
    have hsum := congrArg (· ^^^ cipherBits aes (Galois.preCounter (nonceBits iv))) h
    simpa [BitVec.xor_assoc] using hsum.symm
  · intro h
    rw [h]
    exact BitVec.zero_xor.symm

theorem decrypt_isSome_iff (aes : Block → Block) (iv : Nonce) (aad buf : Bytes)
    (expected : Block) :
    (aes128gcmDecrypt aes iv aad buf expected.toList).isSome ↔
      gcmTag aes iv aad buf = expected := by
  unfold aes128gcmDecrypt
  rw [← Vector.toList_inj]
  split <;> simp_all

/-- The cipher under a key. -/
abbrev aesOf (key : Key) : Block → Block := aes128EncryptBlock (aes128Setkey key)

/-- What the mode asks of the code for a key, a nonce, additional data and a message:
the hash, the ciphertext with its tag, and which tags the ciphertext is accepted with. -/
structure MeetsGcm (key : Key) (iv : Nonce) (aad msg : Bytes) : Prop where
  hash : blockBits (ghash (aesOf key zeroBlock) aad (aes128gcmEncrypt (aesOf key) iv aad msg).1) =
    Galois.ghash (cipherBits (aesOf key)) aad
      (Galois.ciphertext (cipherBits (aesOf key)) (nonceBits iv) msg)
  ciphertext : (aes128gcmEncrypt (aesOf key) iv aad msg).1 =
    Galois.ciphertext (cipherBits (aesOf key)) (nonceBits iv) msg
  tag : blockBits (aes128gcmEncrypt (aesOf key) iv aad msg).2 =
    Galois.tag (cipherBits (aesOf key)) (nonceBits iv) aad
      (Galois.ciphertext (cipherBits (aesOf key)) (nonceBits iv) msg)
  accepted : ∀ expected : Block,
    (aes128gcmDecrypt (aesOf key) iv aad
        (Galois.ciphertext (cipherBits (aesOf key)) (nonceBits iv) msg) expected.toList).isSome ↔
      blockBits expected = Galois.tag (cipherBits (aesOf key)) (nonceBits iv) aad
        (Galois.ciphertext (cipherBits (aesOf key)) (nonceBits iv) msg)

/-- The computed hash is zero, so the specified one is. -/
theorem MeetsGcm.ghash_eq_zero {key : Key} {iv : Nonce} {aad msg : Bytes}
    (h : MeetsGcm key iv aad msg) :
    Galois.ghash (cipherBits (aesOf key)) aad
      (Galois.ciphertext (cipherBits (aesOf key)) (nonceBits iv) msg) = 0 := by
  rw [← h.hash, Tls.ghash_eq_zero, blockBits_zeroBlock]

/-- The code meets the mode exactly where the hash key is a root of the polynomial
whose coefficients are the blocks that are hashed. -/
theorem meetsGcm_iff (key : Key) (iv : Nonce) (aad msg : Bytes) :
    MeetsGcm key iv aad msg ↔
      Galois.polynomial (cipherBits (aesOf key) 0) (Galois.hashed aad
        (Galois.ciphertext (cipherBits (aesOf key)) (nonceBits iv) msg)) = 0 := by
  rw [← Galois.hash_eq_polynomial]
  constructor
  · exact MeetsGcm.ghash_eq_zero
  intro hzero
  have hcipher : (aes128gcmEncrypt (aesOf key) iv aad msg).1 =
      Galois.ciphertext (cipherBits (aesOf key)) (nonceBits iv) msg :=
    gcmCtr_eq (aesOf key) iv msg
  have hspec := (blockBits_gcmTag_iff (aesOf key) iv aad
    (Galois.ciphertext (cipherBits (aesOf key)) (nonceBits iv) msg)).mpr hzero
  constructor
  · rw [Tls.ghash_eq_zero, blockBits_zeroBlock]
    exact hzero.symm
  · exact hcipher
  · rw [← hspec, ← hcipher]
    rfl
  · intro expected
    rw [decrypt_isSome_iff, ← hspec]
    constructor
    · exact fun h => congrArg blockBits h.symm
    · exact fun h => (blockBits_inj h).symm

/-! ## A byte of additional data -/

def zeroKey : Key := Vector.replicate 16 0

def zeroNonce : Nonce := Vector.replicate 12 0

/-- The words of the zero key, expanded. -/
def zeroKeyWords : Array UInt32 :=
  #[0, 0, 0, 0, 1650680675, 1650680675, 1650680675, 1650680675,
    2610469065, 4194040746, 2610469065, 4194040746, 2425828432, 1768738810, 4076099379, 185576601,
    3993426555, 2271876481, 1973306034, 2123492907, 2133732232, 4165221897, 2379906235, 4081816208,
    3965799301, 337999244, 2583628087, 1790221223, 561321863, 894460427, 2897177404, 3323719835,
    251200307, 1000956216, 2533755396, 1360919199, 2983516386, 2323495386, 494646238, 1281771841,
    3035585483, 1049813521, 602493391, 1871648910]

theorem aes128Setkey_zeroKey : aes128Setkey zeroKey = zeroKeyWords := by
  decide +kernel

theorem fiveRounds_zeroKey :
    (List.range' 1 5).foldl (aesRound zeroKeyWords) (addRoundKey zeroKeyWords 0 (bitsBlock 0)) =
      #v[212, 111, 79, 108, 85, 184, 150, 51, 126, 5, 187, 61, 121, 121, 222, 35] := by
  decide +kernel

/-- The hash key of the zero key. -/
theorem cipherBits_zeroKey :
    cipherBits (aesOf zeroKey) 0 = 0x66e94bd4ef8a2c3b884cfa59ca342b2e#128 := by
  have hrounds : List.range' 1 10 = List.range' 1 5 ++ List.range' 6 5 := rfl
  change blockBits (aes128EncryptBlock (aes128Setkey zeroKey) (bitsBlock 0)) = _
  rw [aes128Setkey_zeroKey, aes128EncryptBlock, hrounds, List.foldl_append, fiveRounds_zeroKey]
  decide +kernel

/-- Under the zero key one byte of additional data has a hash that is not zero. -/
theorem one_byte_unauthenticated : ¬ MeetsGcm zeroKey zeroNonce [1] [] := by
  intro h
  have hzero := h.ghash_eq_zero
  rw [Galois.ghash, cipherBits_zeroKey] at hzero
  revert hzero
  decide +kernel

end OriaOS.Tls
