import OriaOS.Lib.Ring

/-!
# The TLS record layer

Records as `read_record` returns them, the nonce of a sequence number, and the
decryption of a protected record. The AEAD is a parameter: the code calls it
through `aes128gcm_decrypt`, which leaves the buffer alone when the tag does not
match and replaces the ciphertext by a plaintext of the same length otherwise.
-/

namespace OriaOS.Tls

open OriaOS.Lib

abbrev Bytes := List UInt8
abbrev Key := Vector UInt8 16
abbrev Nonce := Vector UInt8 12

abbrev recBufSize : Nat := 16384
abbrev appBufSize : Nat := 16384

instance : NeZero appBufSize := ⟨by decide⟩

def handshakeType : UInt8 := 0x16
def appDataType : UInt8 := 0x17
def alertType : UInt8 := 0x15
def changeCipherType : UInt8 := 0x14

/-- A record `read_record` accepted. Longer ones make it fail. -/
structure TlsRecord where
  type : UInt8
  data : Bytes
  length_le : data.length ≤ recBufSize

/-- What successive calls of `read_record` return: a record, or a failure. When
the list ends nothing more arrives, and the calls fail. -/
abbrev Wire := List (Option TlsRecord)

/-- Authenticated decryption under a key: nonce, additional data, ciphertext
and tag give the plaintext or nothing. -/
structure Aead where
  openWith : Key → Nonce → Bytes → Bytes → Bytes → Option Bytes
  length_eq : ∀ {key nonce aad ct tag pt}, openWith key nonce aad ct tag = some pt →
    pt.length = ct.length

/-- `make_nonce`: the sequence number, big-endian, over the last eight bytes of
the IV. -/
def makeNonce (iv : Nonce) (seq : UInt64) : Nonce :=
  Vector.ofFn fun i =>
    if 4 ≤ i.val then iv[i] ^^^ (seq >>> UInt64.ofNat (56 - 8 * (i.val - 4))).toUInt8 else iv[i]

/-- The additional data of a record of the given length. -/
def recordAad (len : Nat) : Bytes :=
  [0x17, 0x03, 0x03, UInt8.ofNat (len / 256), UInt8.ofNat len]

/-- The inner content type is the last byte that is not zero, the content what
precedes it. -/
def splitInner (pt : Bytes) : Option (UInt8 × Bytes) :=
  match pt.reverse.dropWhile (· = 0) with
  | [] => none
  | t :: rest => some (t, rest.reverse)

/-- A record long enough to hold a tag is opened under a sequence number. -/
def openRecord (A : Aead) (key : Key) (iv : Nonce) (seq : UInt64) (buf : Bytes) : Option Bytes :=
  let ptlen := buf.length - 16
  A.openWith key (makeNonce iv seq) (recordAad buf.length) (buf.take ptlen) (buf.drop ptlen)

/-- `decrypt_record`: the content type and content, or nothing, and the next
sequence number. The number advances whether or not the tag matches. -/
def decryptRecord (A : Aead) (key : Key) (iv : Nonce) (seq : UInt64) (buf : Bytes) :
    Option (UInt8 × Bytes) × UInt64 :=
  if buf.length < 16 then (none, seq)
  else ((openRecord A key iv seq buf).bind splitInner, seq + 1)

/-- The state of a connection. The transcript holds the pieces hashed so far,
and the application buffer is read at its tail (`ap_head`) and written at its
head (`ap_tail`). -/
structure TlsConn where
  used : Bool
  tcpId : Int
  cPriv : Bytes
  cPub : Bytes
  sPub : Bytes
  ecdhe : Bytes
  hsSKey : Key
  hsSIv : Nonce
  hsCKey : Key
  hsCIv : Nonce
  cHsTraffic : Bytes
  apSKey : Key
  apSIv : Nonce
  apCKey : Key
  apCIv : Nonce
  hsSSeq : UInt64
  hsCSeq : UInt64
  apSSeq : UInt64
  apCSeq : UInt64
  transcript : List Bytes
  state : Nat
  apBuf : Ring UInt8 appBufSize

/-- The cleared entry of the connection table. -/
def TlsConn.zero : TlsConn where
  used := false
  tcpId := 0
  cPriv := List.replicate 32 0
  cPub := List.replicate 32 0
  sPub := List.replicate 32 0
  ecdhe := List.replicate 32 0
  hsSKey := Vector.replicate 16 0
  hsSIv := Vector.replicate 12 0
  hsCKey := Vector.replicate 16 0
  hsCIv := Vector.replicate 12 0
  cHsTraffic := List.replicate 32 0
  apSKey := Vector.replicate 16 0
  apSIv := Vector.replicate 12 0
  apCKey := Vector.replicate 16 0
  apCIv := Vector.replicate 12 0
  hsSSeq := 0
  hsCSeq := 0
  apSSeq := 0
  apCSeq := 0
  transcript := []
  state := 0
  apBuf := ⟨fun _ => 0, 0, 0⟩

private theorem seq_byte (seq : UInt64) (shift : Nat) (h : shift < 64) :
    (seq >>> UInt64.ofNat shift).toUInt8.toNat = seq.toNat / 2 ^ shift % 256 := by
  rw [UInt64.toNat_toUInt8, UInt64.toNat_shiftRight, Nat.shiftRight_eq_div_pow,
    UInt64.toNat_ofNat_of_lt' (Nat.lt_trans h (by decide)), Nat.mod_eq_of_lt h]

/-- Numbers of `n` bytes are told apart by their bytes. -/
private theorem eq_of_bytes {n a b : Nat} (ha : a < 256 ^ n) (hb : b < 256 ^ n)
    (h : ∀ k, k < n → a / 256 ^ k % 256 = b / 256 ^ k % 256) : a = b := by
  induction n generalizing a b with
  | zero => omega
  | succ n ih =>
      have hlow := h 0 (Nat.succ_pos n)
      have hhigh : a / 256 = b / 256 := by
        apply ih
        · exact Nat.div_lt_of_lt_mul (by rwa [← pow_succ'])
        · exact Nat.div_lt_of_lt_mul (by rwa [← pow_succ'])
        · intro k hk
          rw [Nat.div_div_eq_div_mul, Nat.div_div_eq_div_mul, ← pow_succ']
          exact h (k + 1) (Nat.succ_lt_succ hk)
      rw [pow_zero, Nat.div_one, Nat.div_one] at hlow
      omega

/-- Different sequence numbers have different nonces. -/
theorem makeNonce_injective (iv : Nonce) {s t : UInt64} (h : makeNonce iv s = makeNonce iv t) :
    s = t := by
  have hbyte : ∀ k, k < 8 → s.toNat / 2 ^ (56 - 8 * k) % 256 = t.toNat / 2 ^ (56 - 8 * k) % 256 := by
    intro k hk
    have hi : 4 + k < 12 := by omega
    have hget := congrArg (fun v : Nonce => v[4 + k]) h
    simp only [makeNonce, Vector.getElem_ofFn] at hget
    rw [if_pos (by omega), if_pos (by omega)] at hget
    have hxor := (UInt8.xor_right_inj _).mp hget
    rw [show 4 + k - 4 = k by omega] at hxor
    rw [← seq_byte s _ (by omega), ← seq_byte t _ (by omega), hxor]
  apply UInt64.toNat_inj.mp
  apply eq_of_bytes (n := 8) s.toNat_lt t.toNat_lt
  intro k hk
  have hthis := hbyte (7 - k) (by omega)
  rwa [show 56 - 8 * (7 - k) = 8 * k by omega, pow_mul] at hthis

theorem splitInner_length {pt data : Bytes} {t : UInt8} (h : splitInner pt = some (t, data)) :
    data.length + 1 ≤ pt.length := by
  unfold splitInner at h
  split at h
  · cases h
  · next t' rest heq =>
      simp only [Option.some.injEq, Prod.mk.injEq] at h
      have hle := (List.dropWhile_suffix (l := pt.reverse) fun b : UInt8 => decide (b = 0)).length_le
      rw [heq, List.length_reverse] at hle
      rw [← h.2, List.length_reverse]
      exact hle

/-- A record's content is shorter than the record by the tag and its type. -/
theorem openRecord_length {A : Aead} {key : Key} {iv : Nonce} {seq : UInt64} {buf pt : Bytes}
    (h : openRecord A key iv seq buf = some pt) : pt.length = buf.length - 16 := by
  have hlen := A.length_eq h
  rw [hlen, List.length_take]
  omega

end OriaOS.Tls
