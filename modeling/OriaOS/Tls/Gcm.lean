import OriaOS.Tls.Record

/-!
# AES-128-GCM

The block cipher and the authenticated encryption of `crypto.c`. A block cipher under
a key is a function on blocks, as the source passes an expanded key.

Every call of `gcm_mul` stores the product in the place of the first factor, which it
clears before it reads it. The product is zero, and with it the hash and its part of
the tag.
-/

namespace OriaOS.Tls

/-- Sixteen bytes. -/
abbrev Block := Vector UInt8 16

/-! ## AES-128 -/

/-- `SBOX`. -/
def sbox : Array UInt8 :=
  #[0x63, 0x7c, 0x77, 0x7b, 0xf2, 0x6b, 0x6f, 0xc5, 0x30, 0x01, 0x67, 0x2b, 0xfe, 0xd7, 0xab, 0x76,
    0xca, 0x82, 0xc9, 0x7d, 0xfa, 0x59, 0x47, 0xf0, 0xad, 0xd4, 0xa2, 0xaf, 0x9c, 0xa4, 0x72, 0xc0,
    0xb7, 0xfd, 0x93, 0x26, 0x36, 0x3f, 0xf7, 0xcc, 0x34, 0xa5, 0xe5, 0xf1, 0x71, 0xd8, 0x31, 0x15,
    0x04, 0xc7, 0x23, 0xc3, 0x18, 0x96, 0x05, 0x9a, 0x07, 0x12, 0x80, 0xe2, 0xeb, 0x27, 0xb2, 0x75,
    0x09, 0x83, 0x2c, 0x1a, 0x1b, 0x6e, 0x5a, 0xa0, 0x52, 0x3b, 0xd6, 0xb3, 0x29, 0xe3, 0x2f, 0x84,
    0x53, 0xd1, 0x00, 0xed, 0x20, 0xfc, 0xb1, 0x5b, 0x6a, 0xcb, 0xbe, 0x39, 0x4a, 0x4c, 0x58, 0xcf,
    0xd0, 0xef, 0xaa, 0xfb, 0x43, 0x4d, 0x33, 0x85, 0x45, 0xf9, 0x02, 0x7f, 0x50, 0x3c, 0x9f, 0xa8,
    0x51, 0xa3, 0x40, 0x8f, 0x92, 0x9d, 0x38, 0xf5, 0xbc, 0xb6, 0xda, 0x21, 0x10, 0xff, 0xf3, 0xd2,
    0xcd, 0x0c, 0x13, 0xec, 0x5f, 0x97, 0x44, 0x17, 0xc4, 0xa7, 0x7e, 0x3d, 0x64, 0x5d, 0x19, 0x73,
    0x60, 0x81, 0x4f, 0xdc, 0x22, 0x2a, 0x90, 0x88, 0x46, 0xee, 0xb8, 0x14, 0xde, 0x5e, 0x0b, 0xdb,
    0xe0, 0x32, 0x3a, 0x0a, 0x49, 0x06, 0x24, 0x5c, 0xc2, 0xd3, 0xac, 0x62, 0x91, 0x95, 0xe4, 0x79,
    0xe7, 0xc8, 0x37, 0x6d, 0x8d, 0xd5, 0x4e, 0xa9, 0x6c, 0x56, 0xf4, 0xea, 0x65, 0x7a, 0xae, 0x08,
    0xba, 0x78, 0x25, 0x2e, 0x1c, 0xa6, 0xb4, 0xc6, 0xe8, 0xdd, 0x74, 0x1f, 0x4b, 0xbd, 0x8b, 0x8a,
    0x70, 0x3e, 0xb5, 0x66, 0x48, 0x03, 0xf6, 0x0e, 0x61, 0x35, 0x57, 0xb9, 0x86, 0xc1, 0x1d, 0x9e,
    0xe1, 0xf8, 0x98, 0x11, 0x69, 0xd9, 0x8e, 0x94, 0x9b, 0x1e, 0x87, 0xe9, 0xce, 0x55, 0x28, 0xdf,
    0x8c, 0xa1, 0x89, 0x0d, 0xbf, 0xe6, 0x42, 0x68, 0x41, 0x99, 0x2d, 0x0f, 0xb0, 0x54, 0xbb, 0x16]

/-- `RCON`. -/
def rcon : Array UInt8 := #[0x01, 0x02, 0x04, 0x08, 0x10, 0x20, 0x40, 0x80, 0x1b, 0x36]

def subByte (b : UInt8) : UInt8 := sbox.getD b.toNat 0

/-- The word of four bytes, the first the highest. -/
def word (b0 b1 b2 b3 : UInt8) : UInt32 :=
  (b0.toUInt32 <<< 24) ||| (b1.toUInt32 <<< 16) ||| (b2.toUInt32 <<< 8) ||| b3.toUInt32

/-- Byte `r` of a word, the highest first. -/
def wordByte (w : UInt32) (r : Nat) : UInt8 := (w >>> UInt32.ofNat (24 - 8 * r)).toUInt8

/-- The next word of the key schedule, behind the words that are there. -/
def nextWord (w : Array UInt32) : UInt32 :=
  let i := w.size
  let t := w.getD (i - 1) 0
  let t :=
    if i % 4 = 0 then
      word (subByte (wordByte t 1)) (subByte (wordByte t 2)) (subByte (wordByte t 3))
        (subByte (wordByte t 0)) ^^^ ((rcon.getD (i / 4 - 1) 0).toUInt32 <<< 24)
    else t
  w.getD (i - 4) 0 ^^^ t

/-- `aes128_setkey`: the 44 words of the expanded key. -/
def aes128Setkey (key : Key) : Array UInt32 :=
  let first := (Array.range 4).map fun i =>
    word (key[4 * i]!) (key[4 * i + 1]!) (key[4 * i + 2]!) (key[4 * i + 3]!)
  (List.range 40).foldl (fun w _ => w.push (nextWord w)) first

/-- `aes_xtime`. -/
def aesXtime (b : UInt8) : UInt8 := (b <<< 1) ^^^ (if b >>> 7 = 0 then 0 else 0x1b)

/-- The state of the cipher, by columns: row `r` of column `c` stands at `4 * c + r`. -/
def ofCells (f : Fin 4 → Fin 4 → UInt8) : Block :=
  Vector.ofFn fun k => f (Fin.ofNat 4 k) (Fin.ofNat 4 (k / 4))

def cell (s : Block) (r c : Fin 4) : UInt8 := s[4 * c.val + r.val]

def addRoundKey (rk : Array UInt32) (round : Nat) (s : Block) : Block :=
  ofCells fun r c => cell s r c ^^^ wordByte (rk.getD (4 * round + c) 0) r

/-- Row `r` moves left by `r` places. -/
def shiftRows (s : Block) : Block := ofCells fun r c => cell s r (c + r)

def mixColumns (s : Block) : Block :=
  ofCells fun r c =>
    aesXtime (cell s r c) ^^^ cell s (r + 1) c ^^^ aesXtime (cell s (r + 1) c) ^^^
      cell s (r + 2) c ^^^ cell s (r + 3) c

/-- A turn of the loop over the rounds. The last round does not mix columns. -/
def aesRound (rk : Array UInt32) (s : Block) (i : Nat) : Block :=
  let s := shiftRows (s.map subByte)
  addRoundKey rk i (if i < 10 then mixColumns s else s)

/-- `aes128_encrypt_block`. -/
def aes128EncryptBlock (rk : Array UInt32) (input : Block) : Block :=
  (List.range' 1 10).foldl (aesRound rk) (addRoundKey rk 0 input)

/-! ## GHASH -/

def zeroBlock : Block := Vector.replicate 16 0

def xorBlock (x y : Block) : Block := Vector.ofFn fun k => x[k] ^^^ y[k]

/-- The turn of `gcm_mul` that multiplies `V` by `x`. -/
def gcmDouble (v : Block) : Block :=
  Vector.ofFn fun k =>
    if k.val = 0 then (v[0] >>> 1) ^^^ (if v[15] &&& 1 = 0 then 0 else 0xe1)
    else (v[k] >>> 1) ||| (v[k.val - 1] <<< 7)

/-- The inner loop of `gcm_mul` over the bits of one byte, on `Z` and `V`. -/
def gcmMulByte (xi : UInt8) (zv : Block × Block) : Block × Block :=
  [7, 6, 5, 4, 3, 2, 1, 0].foldl (fun zv j =>
    (if (xi >>> j) &&& 1 = 0 then zv.1 else xorBlock zv.1 zv.2, gcmDouble zv.2)) zv

/-- `gcm_mul`. When `Z` is the block `X`, its bytes are read from what is there by
then. -/
def gcmMul (same : Bool) (x y : Block) : Block :=
  ((List.finRange 16).foldl (fun zv i => gcmMulByte (if same then zv.1[i] else x[i]) zv)
    (zeroBlock, y)).1

/-- The blocks of a text, the last one filled with zero bytes. -/
def textBlocks (text : Bytes) : List Block :=
  (List.range ((text.length + 15) / 16)).map fun i =>
    Vector.ofFn fun j => text.getD (i * 16 + j) 0

/-- The block of the two lengths in bits. -/
def lengthBlock (aadLen clen : Nat) : Block :=
  Vector.ofFn fun k =>
    if k.val < 8 then UInt8.ofNat (aadLen * 8 / 2 ^ (8 * (7 - k.val)))
    else UInt8.ofNat (clen * 8 / 2 ^ (8 * (15 - k.val)))

/-- One block of `ghash`: `gcm_mul(X, X, H)`. -/
def ghashStep (h x block : Block) : Block := gcmMul true (xorBlock x block) h

def ghash (h : Block) (aad cipher : Bytes) : Block :=
  let x := (textBlocks aad).foldl (ghashStep h) zeroBlock
  let x := (textBlocks cipher).foldl (ghashStep h) x
  ghashStep h x (lengthBlock aad.length cipher.length)

/-! ## Counter mode -/

/-- The nonce with a counter behind it. -/
def ctrBlock (iv : Nonce) (ctr : UInt32) : Block :=
  Vector.ofFn fun k => if h : k.val < 12 then iv[k.val] else wordByte ctr (k.val - 12)

/-- `gcm_ctr`: the counter is advanced before each block. -/
def gcmCtr (aes : Block → Block) (iv : Nonce) (buf : Bytes) (ctrStart : UInt32) : Bytes :=
  buf.mapIdx fun k b =>
    b ^^^ (aes (ctrBlock iv (ctrStart + 1 + UInt32.ofNat (k / 16))))[k % 16]!

/-- The tag of a ciphertext. -/
def gcmTag (aes : Block → Block) (iv : Nonce) (aad cipher : Bytes) : Block :=
  xorBlock (ghash (aes zeroBlock) aad cipher) (aes (ctrBlock iv 1))

/-- `aes128gcm_encrypt`: the ciphertext and its tag. -/
def aes128gcmEncrypt (aes : Block → Block) (iv : Nonce) (aad buf : Bytes) : Bytes × Block :=
  let cipher := gcmCtr aes iv buf 1
  (cipher, gcmTag aes iv aad cipher)

/-- `aes128gcm_decrypt`, none for -1. -/
def aes128gcmDecrypt (aes : Block → Block) (iv : Nonce) (aad buf : Bytes) (expected : Bytes) :
    Option Bytes :=
  if (gcmTag aes iv aad buf).toList = expected then some (gcmCtr aes iv buf 1) else none

/-- The authenticated encryption of the record layer. -/
def gcmAead : Aead where
  openWith key iv aad ct tag :=
    aes128gcmDecrypt (aes128EncryptBlock (aes128Setkey key)) iv aad ct tag
  length_eq h := by
    unfold aes128gcmDecrypt at h
    split at h
    · cases h
      simp [gcmCtr]
    · cases h

theorem gcmAead_openWith (key : Key) (iv : Nonce) (aad ct tag : Bytes) :
    gcmAead.openWith key iv aad ct tag =
      aes128gcmDecrypt (aes128EncryptBlock (aes128Setkey key)) iv aad ct tag := by
  simp only [gcmAead]

/-! ## What is encrypted is decrypted -/

section Ctr
variable (aes : Block → Block) (iv : Nonce)

@[simp] theorem gcmCtr_length (buf : Bytes) (ctr : UInt32) :
    (gcmCtr aes iv buf ctr).length = buf.length := by
  simp [gcmCtr]

/-- The same bytes are added twice. -/
theorem gcmCtr_gcmCtr (buf : Bytes) (ctr : UInt32) :
    gcmCtr aes iv (gcmCtr aes iv buf ctr) ctr = buf := by
  apply List.ext_getElem
  · simp
  · intro k hk hk'
    simp [gcmCtr]

theorem decrypt_encrypt (aad buf : Bytes) :
    aes128gcmDecrypt aes iv aad (aes128gcmEncrypt aes iv aad buf).1
      (aes128gcmEncrypt aes iv aad buf).2.toList = some buf := by
  have htag : gcmTag aes iv aad (aes128gcmEncrypt aes iv aad buf).1 =
      (aes128gcmEncrypt aes iv aad buf).2 := rfl
  rw [aes128gcmDecrypt, htag, if_pos rfl]
  exact congrArg some (gcmCtr_gcmCtr aes iv buf 1)

end Ctr

/-! ## The tag -/

section Tag

/-- A byte of zeros adds nothing to the product. -/
theorem gcmMulByte_zero (zv : Block × Block) : (gcmMulByte 0 zv).1 = zv.1 := by
  simp [gcmMulByte]

/-- The product in the place of a factor is zero: each byte of the factor that is read
has been cleared. -/
theorem gcmMul_same (x y : Block) : gcmMul true x y = zeroBlock := by
  have hzero : ∀ (l : List (Fin 16)) (zv : Block × Block), zv.1 = zeroBlock →
      (l.foldl (fun zv i => gcmMulByte (if true then zv.1[i] else x[i]) zv) zv).1 =
        zeroBlock := by
    intro l
    induction l with
    | nil => exact fun _ h => h
    | cons i l ih =>
        intro zv h
        apply ih
        have hbyte : zv.1[i] = 0 := by simp [h, zeroBlock]
        calc (gcmMulByte (if true = true then zv.1[i] else x[i]) zv).1
            _ = (gcmMulByte 0 zv).1 := by rw [if_pos rfl, hbyte]
            _ = zeroBlock := by rw [gcmMulByte_zero, h]
  exact hzero _ _ rfl

/-- The hash does not depend on what is hashed. -/
theorem ghash_eq_zero (h : Block) (aad cipher : Bytes) : ghash h aad cipher = zeroBlock :=
  gcmMul_same _ _

theorem zero_xorBlock (x : Block) : xorBlock zeroBlock x = x := by
  ext k hk
  simp [xorBlock, zeroBlock]

/-- The tag depends on the key and the nonce only. -/
theorem gcmTag_eq (aes : Block → Block) (iv : Nonce) (aad cipher : Bytes) :
    gcmTag aes iv aad cipher = aes (ctrBlock iv 1) := by
  rw [gcmTag, ghash_eq_zero, zero_xorBlock]

/-- Whoever has seen one tag can put any text in the place of the ciphertext. -/
theorem decrypt_forged (aes : Block → Block) (iv : Nonce) (aad buf aad' forged : Bytes) :
    aes128gcmDecrypt aes iv aad' forged (aes128gcmEncrypt aes iv aad buf).2.toList =
      some (gcmCtr aes iv forged 1) := by
  rw [aes128gcmDecrypt, if_pos]
  rw [aes128gcmEncrypt, gcmTag_eq, gcmTag_eq]

end Tag

end OriaOS.Tls
