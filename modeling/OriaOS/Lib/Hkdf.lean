import Mathlib.Data.List.Basic
import Mathlib.Tactic.Cases

/-!
# Keyed hashes and key derivation

HMAC of RFC 2104 and HKDF of RFC 5869 over any hash, and the key schedule of TLS 1.3 without
pre-shared keys, RFC 8446 section 7.1.
-/

namespace OriaOS.Lib.Hkdf

/-- A hash function with its block and digest sizes in bytes. -/
structure Hash where
  hash : List UInt8 → List UInt8
  blockLen : Nat
  hashLen : Nat
  length_hash : ∀ m, (hash m).length = hashLen
  hashLen_pos : 0 < hashLen

/-- The bytes of an ASCII string. -/
def ascii (s : String) : List UInt8 := s.toList.map fun c => UInt8.ofNat c.toNat

variable (H : Hash)

/-- HMAC. -/
def hmac (key text : List UInt8) : List UInt8 :=
  let k := if H.blockLen < key.length then H.hash key else key
  let k0 := k ++ List.replicate (H.blockLen - k.length) 0
  H.hash (k0.map (· ^^^ 0x5c) ++ H.hash (k0.map (· ^^^ 0x36) ++ text))

/-- HKDF-Extract. Without a salt, zeros stand for it. -/
def extract (salt : Option (List UInt8)) (ikm : List UInt8) : List UInt8 :=
  hmac H (salt.getD (List.replicate H.hashLen 0)) ikm

/-- The blocks `T(i)`. -/
def T (prk info : List UInt8) : Nat → List UInt8
  | 0 => []
  | i + 1 => hmac H prk (T prk info i ++ info ++ [UInt8.ofNat (i + 1)])

/-- The first blocks, one after the other. -/
def blocks (prk info : List UInt8) (n : Nat) : List UInt8 :=
  (List.range n).flatMap fun i => T H prk info (i + 1)

/-- HKDF-Expand. -/
def expand (prk info : List UInt8) (len : Nat) : List UInt8 :=
  (blocks H prk info ((len + H.hashLen - 1) / H.hashLen)).take len

/-- The structure `HkdfLabel`. -/
def hkdfLabel (len : Nat) (label context : List UInt8) : List UInt8 :=
  let label := ascii "tls13 " ++ label
  [UInt8.ofNat (len / 256), UInt8.ofNat len] ++ (UInt8.ofNat label.length :: label) ++
    (UInt8.ofNat context.length :: context)

/-- HKDF-Expand-Label. -/
def expandLabel (secret label context : List UInt8) (len : Nat) : List UInt8 :=
  expand H secret (hkdfLabel len label context) len

/-- Derive-Secret, for messages with the given hash. -/
def deriveSecret (secret label transcriptHash : List UInt8) : List UInt8 :=
  expandLabel H secret label transcriptHash H.hashLen

/-! ## The key schedule -/

def zeroes : List UInt8 := List.replicate H.hashLen 0

def earlySecret : List UInt8 := extract H (some (zeroes H)) (zeroes H)

def handshakeSecret (ecdhe : List UInt8) : List UInt8 :=
  extract H (some (deriveSecret H (earlySecret H) (ascii "derived") (H.hash []))) ecdhe

def masterSecret (ecdhe : List UInt8) : List UInt8 :=
  extract H (some (deriveSecret H (handshakeSecret H ecdhe) (ascii "derived") (H.hash [])))
    (zeroes H)

/-- `client_handshake_traffic_secret` -/
def clientHandshakeTraffic (ecdhe th : List UInt8) : List UInt8 :=
  deriveSecret H (handshakeSecret H ecdhe) (ascii "c hs traffic") th

/-- `server_handshake_traffic_secret` -/
def serverHandshakeTraffic (ecdhe th : List UInt8) : List UInt8 :=
  deriveSecret H (handshakeSecret H ecdhe) (ascii "s hs traffic") th

/-- `client_application_traffic_secret_0` -/
def clientApplicationTraffic (ecdhe th : List UInt8) : List UInt8 :=
  deriveSecret H (masterSecret H ecdhe) (ascii "c ap traffic") th

/-- `server_application_traffic_secret_0` -/
def serverApplicationTraffic (ecdhe th : List UInt8) : List UInt8 :=
  deriveSecret H (masterSecret H ecdhe) (ascii "s ap traffic") th

/-- The write key of a traffic secret. -/
def writeKey (secret : List UInt8) (len : Nat) : List UInt8 :=
  expandLabel H secret (ascii "key") [] len

/-- The write IV of a traffic secret. -/
def writeIv (secret : List UInt8) (len : Nat) : List UInt8 :=
  expandLabel H secret (ascii "iv") [] len

/-! ## Lengths -/

variable {H} {prk info : List UInt8}

theorem length_hmac (key text : List UInt8) : (hmac H key text).length = H.hashLen :=
  H.length_hash _

theorem length_T_succ (i : Nat) : (T H prk info (i + 1)).length = H.hashLen := length_hmac _ _

theorem blocks_succ (n : Nat) :
    blocks H prk info (n + 1) = blocks H prk info n ++ T H prk info (n + 1) := by
  rw [blocks, List.range_succ, List.flatMap_append, List.flatMap_singleton]
  rfl

theorem length_blocks (n : Nat) : (blocks H prk info n).length = n * H.hashLen := by
  induction n with
  | zero => simp [blocks]
  | succ n ih => rw [blocks_succ, List.length_append, ih, length_T_succ, Nat.succ_mul]

/-- Enough blocks give the whole output. -/
theorem length_expand (len : Nat) : (expand H prk info len).length = len := by
  rw [expand, List.length_take, length_blocks]
  apply Nat.min_eq_left
  have hdiv := Nat.div_add_mod (len + H.hashLen - 1) H.hashLen
  have hmod := Nat.mod_lt (len + H.hashLen - 1) H.hashLen_pos
  rw [Nat.mul_comm] at hdiv
  have := H.hashLen_pos
  omega

end OriaOS.Lib.Hkdf
