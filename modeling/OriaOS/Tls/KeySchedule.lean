import OriaOS.Crypto.Hkdf
import OriaOS.Tls.Handshake

/-!
# The key schedule

`derive_hs_keys` and `derive_app_keys` on the functions of `crypto.c`, with the secret that the
first leaves for the second, and the keys of RFC 8446. The handshake's own key schedule computes the
same.
-/

namespace OriaOS.Tls.KeySchedule

open OriaOS.Lib OriaOS.Crypto

variable {th1 traffic : Bytes}

/-! ## The code -/

section Code

-- What is on the stack before it is written.
variable (stack : Vector UInt8 64)

/-- `hkdf_expand_label(traffic, "key", 0, 0, key, 16)` -/
def keyOf (traffic : Bytes) : Key :=
  toFixed 16 (hkdfExpandLabel stack traffic (Hkdf.ascii "key") [] 16)

/-- `hkdf_expand_label(traffic, "iv", 0, 0, iv, 12)` -/
def ivOf (traffic : Bytes) : Nonce :=
  toFixed 12 (hkdfExpandLabel stack traffic (Hkdf.ascii "iv") [] 12)

/-- `derive_hs_keys`, and `saved_hs_secret`. -/
def deriveHsKeys (c : TlsConn) (th1 : Bytes) : TlsConn × Bytes :=
  let zero32 := List.replicate 32 0
  let emptyHash := sha256 []
  let early := hkdfExtract stack zero32 zero32
  let derived1 := tls13DeriveSecret stack early (Hkdf.ascii "derived") emptyHash
  let hsSec := hkdfExtract stack derived1 c.ecdhe
  let sTraffic := tls13DeriveSecret stack hsSec (Hkdf.ascii "s hs traffic") th1
  let cTraffic := tls13DeriveSecret stack hsSec (Hkdf.ascii "c hs traffic") th1
  ({ c with
      cHsTraffic := cTraffic
      hsSKey := keyOf stack sTraffic
      hsSIv := ivOf stack sTraffic
      hsCKey := keyOf stack cTraffic
      hsCIv := ivOf stack cTraffic
      hsSSeq := 0
      hsCSeq := 0 }, hsSec)

/-- `derive_app_keys` -/
def deriveAppKeys (c : TlsConn) (savedHsSecret th2 : Bytes) : TlsConn :=
  let zero32 := List.replicate 32 0
  let emptyHash := sha256 []
  let derived2 := tls13DeriveSecret stack savedHsSecret (Hkdf.ascii "derived") emptyHash
  let master := hkdfExtract stack derived2 zero32
  let sTraffic := tls13DeriveSecret stack master (Hkdf.ascii "s ap traffic") th2
  let cTraffic := tls13DeriveSecret stack master (Hkdf.ascii "c ap traffic") th2
  { c with
    apSKey := keyOf stack sTraffic
    apSIv := ivOf stack sTraffic
    apCKey := keyOf stack cTraffic
    apCIv := ivOf stack cTraffic
    apSSeq := 0
    apCSeq := 0 }

end Code

/-! ## The keys of the standard -/

variable {stack : Vector UInt8 64}

theorem toList_toFixed {n : Nat} {bs : Bytes} (h : bs.length = n) : (toFixed n bs).toList = bs := by
  apply List.ext_getElem
  · rw [Vector.length_toList, h]
  · intro i hi hi'
    simp [toFixed, hi']

theorem length_extract (salt : Option (List UInt8)) (ikm : List UInt8) :
    (Hkdf.extract sha2 salt ikm).length = 32 := Hkdf.length_hmac _ _

theorem length_deriveSecret (secret label th : List UInt8) :
    (Hkdf.deriveSecret sha2 secret label th).length = 32 := Hkdf.length_expand _

theorem length_earlySecret : (Hkdf.earlySecret sha2).length = 32 := length_extract _ _

theorem length_handshakeSecret (ecdhe : List UInt8) :
    (Hkdf.handshakeSecret sha2 ecdhe).length = 32 := length_extract _ _

theorem length_masterSecret (ecdhe : List UInt8) :
    (Hkdf.masterSecret sha2 ecdhe).length = 32 := length_extract _ _

theorem keyOf_eq (h : traffic.length = 32) :
    (keyOf stack traffic).toList = Hkdf.writeKey sha2 traffic 16 := by
  have hkey : hkdfExpandLabel stack traffic (Hkdf.ascii "key") [] 16
      = Hkdf.writeKey sha2 traffic 16 :=
    hkdfExpandLabel_eq h (by decide) (by decide) (by decide)
  rw [keyOf, hkey]
  exact toList_toFixed (Hkdf.length_expand _)

theorem ivOf_eq (h : traffic.length = 32) :
    (ivOf stack traffic).toList = Hkdf.writeIv sha2 traffic 12 := by
  have hiv : hkdfExpandLabel stack traffic (Hkdf.ascii "iv") [] 12
      = Hkdf.writeIv sha2 traffic 12 :=
    hkdfExpandLabel_eq h (by decide) (by decide) (by decide)
  rw [ivOf, hiv]
  exact toList_toFixed (Hkdf.length_expand _)

/-- Extracting with a salt that is not empty. -/
theorem hkdfExtract_some {salt ikm : Bytes} (h : salt.length = 32) :
    hkdfExtract stack salt ikm = Hkdf.extract sha2 (some salt) ikm := by
  rw [hkdfExtract_eq, if_neg]
  rintro rfl
  cases h

/-- `saved_hs_secret` is the handshake secret. -/
theorem savedHsSecret_eq (c : TlsConn) (th1 : Bytes) :
    (deriveHsKeys stack c th1).2 = Hkdf.handshakeSecret sha2 c.ecdhe := by
  have hearly : hkdfExtract stack (List.replicate 32 0) (List.replicate 32 0)
      = Hkdf.earlySecret sha2 := hkdfExtract_some (by decide)
  simp only [deriveHsKeys]
  rw [hearly, sha256_eq, tls13DeriveSecret_eq length_earlySecret (by decide)
    (Sha2.length_sha256 _), hkdfExtract_some (length_deriveSecret _ _ _)]
  rfl

theorem handshakeTraffic_eq {label : Bytes} (c : TlsConn) (hlabel : label.length ≤ 64)
    (hth : th1.length = 32) :
    tls13DeriveSecret stack (deriveHsKeys stack c th1).2 label th1
      = Hkdf.deriveSecret sha2 (Hkdf.handshakeSecret sha2 c.ecdhe) label th1 := by
  rw [savedHsSecret_eq, tls13DeriveSecret_eq (length_handshakeSecret _) hlabel hth]

/-- The master secret that `derive_app_keys` extracts. -/
theorem master_eq (ecdhe : Bytes) :
    hkdfExtract stack (tls13DeriveSecret stack (Hkdf.handshakeSecret sha2 ecdhe)
      (Hkdf.ascii "derived") (sha256 [])) (List.replicate 32 0)
      = Hkdf.masterSecret sha2 ecdhe := by
  rw [sha256_eq, tls13DeriveSecret_eq (length_handshakeSecret _) (by decide)
    (Sha2.length_sha256 _), hkdfExtract_some (length_deriveSecret _ _ _)]
  rfl

/-- The keys and IVs of RFC 8446 for a shared secret and the two transcript hashes. -/
structure StandardKeys (c : TlsConn) (ecdhe th1 th2 : Bytes) : Prop where
  hsSKey : c.hsSKey.toList = Hkdf.writeKey sha2 (Hkdf.serverHandshakeTraffic sha2 ecdhe th1) 16
  hsSIv : c.hsSIv.toList = Hkdf.writeIv sha2 (Hkdf.serverHandshakeTraffic sha2 ecdhe th1) 12
  hsCKey : c.hsCKey.toList = Hkdf.writeKey sha2 (Hkdf.clientHandshakeTraffic sha2 ecdhe th1) 16
  hsCIv : c.hsCIv.toList = Hkdf.writeIv sha2 (Hkdf.clientHandshakeTraffic sha2 ecdhe th1) 12
  apSKey : c.apSKey.toList = Hkdf.writeKey sha2 (Hkdf.serverApplicationTraffic sha2 ecdhe th2) 16
  apSIv : c.apSIv.toList = Hkdf.writeIv sha2 (Hkdf.serverApplicationTraffic sha2 ecdhe th2) 12
  apCKey : c.apCKey.toList = Hkdf.writeKey sha2 (Hkdf.clientApplicationTraffic sha2 ecdhe th2) 16
  apCIv : c.apCIv.toList = Hkdf.writeIv sha2 (Hkdf.clientApplicationTraffic sha2 ecdhe th2) 12

theorem standardKeys (c : TlsConn) {th2 : Bytes} (hth1 : th1.length = 32) (hth2 : th2.length = 32) :
    StandardKeys (deriveAppKeys stack (deriveHsKeys stack c th1).1 (deriveHsKeys stack c th1).2 th2)
      c.ecdhe th1 th2 := by
  have hserver : tls13DeriveSecret stack (deriveHsKeys stack c th1).2 (Hkdf.ascii "s hs traffic")
      th1 = Hkdf.serverHandshakeTraffic sha2 c.ecdhe th1 :=
    handshakeTraffic_eq c (by decide) hth1
  have hclient : tls13DeriveSecret stack (deriveHsKeys stack c th1).2 (Hkdf.ascii "c hs traffic")
      th1 = Hkdf.clientHandshakeTraffic sha2 c.ecdhe th1 :=
    handshakeTraffic_eq c (by decide) hth1
  have happ : ∀ label : Bytes, label.length ≤ 64 →
      tls13DeriveSecret stack (hkdfExtract stack (tls13DeriveSecret stack
        (deriveHsKeys stack c th1).2 (Hkdf.ascii "derived") (sha256 [])) (List.replicate 32 0))
        label th2 = Hkdf.deriveSecret sha2 (Hkdf.masterSecret sha2 c.ecdhe) label th2 := by
    intro label hlabel
    rw [savedHsSecret_eq, master_eq,
      tls13DeriveSecret_eq (length_masterSecret _) hlabel hth2]
  have hserverApp := happ (Hkdf.ascii "s ap traffic") (by decide)
  have hclientApp := happ (Hkdf.ascii "c ap traffic") (by decide)
  constructor
  · exact (congrArg (fun t => (keyOf stack t).toList) hserver).trans
      (keyOf_eq (length_deriveSecret _ _ _))
  · exact (congrArg (fun t => (ivOf stack t).toList) hserver).trans
      (ivOf_eq (length_deriveSecret _ _ _))
  · exact (congrArg (fun t => (keyOf stack t).toList) hclient).trans
      (keyOf_eq (length_deriveSecret _ _ _))
  · exact (congrArg (fun t => (ivOf stack t).toList) hclient).trans
      (ivOf_eq (length_deriveSecret _ _ _))
  · exact (congrArg (fun t => (keyOf stack t).toList) hserverApp).trans
      (keyOf_eq (length_deriveSecret _ _ _))
  · exact (congrArg (fun t => (ivOf stack t).toList) hserverApp).trans
      (ivOf_eq (length_deriveSecret _ _ _))
  · exact (congrArg (fun t => (keyOf stack t).toList) hclientApp).trans
      (keyOf_eq (length_deriveSecret _ _ _))
  · exact (congrArg (fun t => (ivOf stack t).toList) hclientApp).trans
      (ivOf_eq (length_deriveSecret _ _ _))

/-- The keyed hash, the derivation of keys, and the keys of a connection are those of the
standards. -/
theorem keys_are_standard (stack : Vector UInt8 64) :
    (∀ key msg, hmacSha256 stack key msg = Hkdf.hmac sha2 key msg) ∧
    (∀ salt ikm, hkdfExtract stack salt ikm
      = Hkdf.extract sha2 (if salt = [] then none else some salt) ikm) ∧
    (∀ (prk : Vector UInt8 32) (info : List UInt8) (olen : Nat), info.length ≤ 256 → olen ≤ 8160 →
      hkdfExpand stack prk.toList info olen = Hkdf.expand sha2 prk.toList info olen) ∧
    ∀ (c : TlsConn) (th1 th2 : Vector UInt8 32),
      StandardKeys
        (deriveAppKeys stack (deriveHsKeys stack c th1.toList).1 (deriveHsKeys stack c th1.toList).2
          th2.toList)
        c.ecdhe th1.toList th2.toList := by
  refine ⟨hmacSha256_eq, hkdfExtract_eq, ?_, ?_⟩
  · intro prk info olen hinfo holen
    exact hkdfExpand_eq Vector.length_toList hinfo holen
  · intro c th1 th2
    exact standardKeys c Vector.length_toList Vector.length_toList

/-- Two blocks and a part of a third. -/
theorem expand_is_standard :
    hkdfExpand (Vector.replicate 64 0) (Vector.replicate 32 (7 : UInt8)).toList [1, 2, 3] 70
      = Hkdf.expand sha2 (Vector.replicate 32 (7 : UInt8)).toList [1, 2, 3] 70 :=
  (keys_are_standard (Vector.replicate 64 0)).2.2.1 (Vector.replicate 32 7) [1, 2, 3] 70
    (by decide) (by decide)

/-! ## The handshake -/

section Handshake
variable {X : Type} (K : Crypto X) {prk info : Bytes}

theorem length_sha256 (m : Bytes) : (OriaOS.Crypto.sha256 m).length = 32 := by
  rw [sha256_eq]
  exact Sha2.length_sha256 m

/-- The primitives of the handshake with the hash of `crypto.c`. -/
def withSha256 : Crypto X :=
  { K with sha256 := OriaOS.Crypto.sha256, sha256_length := length_sha256 }

theorem withSha256_sha256 : (withSha256 K).sha256 = Sha2.sha256 := funext sha256_eq

theorem withSha256_hmac (key msg : Bytes) :
    (withSha256 K).hmacSha256 key msg = Hkdf.hmac sha2 key msg := by
  rw [Crypto.hmacSha256, withSha256_sha256]
  rfl

theorem withSha256_hkdfBlocks (n i : Nat) :
    Hkdf.blocks sha2 prk info (i + n) = Hkdf.blocks sha2 prk info i ++
      (withSha256 K).hkdfBlocks prk info n (UInt8.ofNat (i + 1)) (Hkdf.T sha2 prk info i) := by
  induction n generalizing i with
  | zero => exact (List.append_nil _).symm
  | succ n ih =>
      have hblock : Hkdf.hmac sha2 prk (Hkdf.T sha2 prk info i ++ info ++ [UInt8.ofNat (i + 1)])
          = Hkdf.T sha2 prk info (i + 1) := rfl
      have hctr : UInt8.ofNat (i + 1) + 1 = UInt8.ofNat (i + 1 + 1) :=
        (UInt8.ofNat_add (i + 1) 1).symm
      rw [Crypto.hkdfBlocks, withSha256_hmac, hblock, hctr, ← List.append_assoc,
        ← Hkdf.blocks_succ, ← ih (i + 1), Nat.add_right_comm, Nat.add_assoc]

theorem withSha256_hkdfExpand (olen : Nat) :
    (withSha256 K).hkdfExpand prk info olen = Hkdf.expand sha2 prk info olen := by
  have hblocks : Hkdf.blocks sha2 prk info ((olen + 31) / 32)
      = (withSha256 K).hkdfBlocks prk info ((olen + 31) / 32) 1 [] := by
    rw [← Nat.zero_add ((olen + 31) / 32), withSha256_hkdfBlocks K]
    simp [Hkdf.blocks, Hkdf.T]
  exact (congrArg (List.take olen) hblocks).symm

theorem withSha256_hkdfExpandLabel (secret ctx : Bytes) (label : String) (olen : Nat) :
    (withSha256 K).hkdfExpandLabel secret label.toList ctx olen
      = Hkdf.expandLabel sha2 secret (Hkdf.ascii label) ctx olen := by
  have htext : ("tls13 ".toList ++ label.toList).map (fun ch => UInt8.ofNat ch.toNat)
      = Hkdf.ascii "tls13 " ++ Hkdf.ascii label := List.map_append
  rw [Crypto.hkdfExpandLabel, withSha256_hkdfExpand, Hkdf.expandLabel, Hkdf.hkdfLabel, htext]
  simp only [List.append_assoc, List.cons_append, List.nil_append]

theorem withSha256_deriveSecret (secret th : Bytes) (label : String) :
    (withSha256 K).deriveSecret secret label.toList th
      = Hkdf.deriveSecret sha2 secret (Hkdf.ascii label) th :=
  withSha256_hkdfExpandLabel K secret th label 32

theorem withSha256_hkdfExtract {salt : Bytes} (ikm : Bytes) (h : salt.length = 32) :
    (withSha256 K).hkdfExtract salt ikm = Hkdf.extract sha2 (some salt) ikm := by
  rw [Crypto.hkdfExtract, if_neg, withSha256_hmac]
  · rfl
  · rintro rfl
    cases h

/-- The secrets of the handshake are those of `derive_hs_keys`. -/
theorem withSha256_hsSecrets (ecdhe th1 : Bytes) :
    hsSecrets (withSha256 K) ecdhe th1 =
      { hsSecret := Hkdf.handshakeSecret sha2 ecdhe
        sTraffic := Hkdf.serverHandshakeTraffic sha2 ecdhe th1
        cTraffic := Hkdf.clientHandshakeTraffic sha2 ecdhe th1 } := by
  have hearly : (withSha256 K).hkdfExtract (List.replicate 32 0) (List.replicate 32 0)
      = Hkdf.earlySecret sha2 := withSha256_hkdfExtract K _ (by decide)
  have hsecret : (withSha256 K).hkdfExtract (Hkdf.deriveSecret sha2 (Hkdf.earlySecret sha2)
      (Hkdf.ascii "derived") (Sha2.sha256 [])) ecdhe = Hkdf.handshakeSecret sha2 ecdhe :=
    withSha256_hkdfExtract K _ (length_deriveSecret _ _ _)
  simp only [hsSecrets, hearly, withSha256_deriveSecret, withSha256_sha256, hsecret]
  rfl

theorem withSha256_trafficKey (h : traffic.length = 32) :
    trafficKey (withSha256 K) traffic = keyOf stack traffic := by
  have hkey : hkdfExpandLabel stack traffic (Hkdf.ascii "key") [] 16
      = Hkdf.expandLabel sha2 traffic (Hkdf.ascii "key") [] 16 :=
    hkdfExpandLabel_eq h (by decide) (by decide) (by decide)
  rw [trafficKey, keyOf, withSha256_hkdfExpandLabel, hkey]

theorem withSha256_trafficIv (h : traffic.length = 32) :
    trafficIv (withSha256 K) traffic = ivOf stack traffic := by
  have hiv : hkdfExpandLabel stack traffic (Hkdf.ascii "iv") [] 12
      = Hkdf.expandLabel sha2 traffic (Hkdf.ascii "iv") [] 12 :=
    hkdfExpandLabel_eq h (by decide) (by decide) (by decide)
  rw [trafficIv, ivOf, withSha256_hkdfExpandLabel, hiv]

/-- The handshake derives the keys that `derive_hs_keys` derives. -/
theorem deriveHsKeys_withSha256 (c : TlsConn) (hth1 : th1.length = 32) :
    Tls.deriveHsKeys (withSha256 K) c th1 = (deriveHsKeys stack c th1).1 ∧
      (hsSecrets (withSha256 K) c.ecdhe th1).hsSecret = (deriveHsKeys stack c th1).2 := by
  have hserver : tls13DeriveSecret stack (deriveHsKeys stack c th1).2 (Hkdf.ascii "s hs traffic")
      th1 = Hkdf.serverHandshakeTraffic sha2 c.ecdhe th1 :=
    handshakeTraffic_eq c (by decide) hth1
  have hclient : tls13DeriveSecret stack (deriveHsKeys stack c th1).2 (Hkdf.ascii "c hs traffic")
      th1 = Hkdf.clientHandshakeTraffic sha2 c.ecdhe th1 :=
    handshakeTraffic_eq c (by decide) hth1
  have hlen : (Hkdf.serverHandshakeTraffic sha2 c.ecdhe th1).length = 32 :=
    length_deriveSecret _ _ _
  have hlen' : (Hkdf.clientHandshakeTraffic sha2 c.ecdhe th1).length = 32 :=
    length_deriveSecret _ _ _
  rw [withSha256_hsSecrets, savedHsSecret_eq]
  refine ⟨?_, rfl⟩
  rw [Tls.deriveHsKeys, withSha256_hsSecrets]
  dsimp only
  rw [withSha256_trafficKey K hlen, withSha256_trafficIv K hlen, withSha256_trafficKey K hlen',
    withSha256_trafficIv K hlen', ← hserver, ← hclient]
  rfl

/-- And from its secret the keys that `derive_app_keys` derives. -/
theorem deriveAppKeys_withSha256 (c c' : TlsConn) (th1 : Bytes) {th2 : Bytes}
    (hth2 : th2.length = 32) :
    Tls.deriveAppKeys (withSha256 K) c' (deriveHsKeys stack c th1).2 th2
      = deriveAppKeys stack c' (deriveHsKeys stack c th1).2 th2 := by
  have hmaster : (withSha256 K).hkdfExtract (Hkdf.deriveSecret sha2
      (Hkdf.handshakeSecret sha2 c.ecdhe) (Hkdf.ascii "derived") (Sha2.sha256 []))
      (List.replicate 32 0) = Hkdf.masterSecret sha2 c.ecdhe :=
    withSha256_hkdfExtract K _ (length_deriveSecret _ _ _)
  have hlen : ∀ label, (Hkdf.deriveSecret sha2 (Hkdf.masterSecret sha2 c.ecdhe) label
      th2).length = 32 := fun _ => length_deriveSecret _ _ _
  have hsecret : ∀ label : Bytes, label.length ≤ 64 →
      tls13DeriveSecret stack (Hkdf.masterSecret sha2 c.ecdhe) label th2
        = Hkdf.deriveSecret sha2 (Hkdf.masterSecret sha2 c.ecdhe) label th2 := fun _ hlabel =>
    tls13DeriveSecret_eq (length_masterSecret _) hlabel hth2
  have hserver := hsecret (Hkdf.ascii "s ap traffic") (by decide)
  have hclient := hsecret (Hkdf.ascii "c ap traffic") (by decide)
  have hkey : ∀ label, trafficKey (withSha256 K) (Hkdf.deriveSecret sha2
      (Hkdf.masterSecret sha2 c.ecdhe) label th2) = keyOf stack _ := fun label =>
    withSha256_trafficKey K (hlen label)
  have hiv : ∀ label, trafficIv (withSha256 K) (Hkdf.deriveSecret sha2
      (Hkdf.masterSecret sha2 c.ecdhe) label th2) = ivOf stack _ := fun label =>
    withSha256_trafficIv K (hlen label)
  rw [savedHsSecret_eq, Tls.deriveAppKeys, deriveAppKeys]
  simp only [withSha256_deriveSecret, withSha256_sha256, hmaster, master_eq, hserver, hclient,
    hkey, hiv]

end Handshake

end OriaOS.Tls.KeySchedule
