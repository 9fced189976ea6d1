import OriaOS.Tls.Record

/-!
# The client handshake

`tls13_connect` from the ClientHello to the client's Finished, with the
certificate store all connections share. Hashing, the curve, the AEAD and the
certificate parser are parameters; HMAC and the key schedule are built on them
as `crypto.c` does. Messages are read in place from the record buffer, whose
bytes beyond the record are what earlier records left there.
-/

namespace OriaOS.Tls

open OriaOS.Lib

/-- The memory that starts at `rec_buf`. -/
abbrev Mem := Nat → UInt8

/-- Bytes copied to the front of a memory. -/
def overlay (data : Bytes) (mem : Mem) : Mem := fun i => (data[i]?).getD (mem i)

/-- The bytes of a memory in a range. -/
def slice (mem : Mem) (start len : Nat) : Bytes := (List.range len).map fun i => mem (start + i)

/-- The primitives the handshake calls. A parsed certificate has type `X`; the
parser gets the memory its argument points to and a length. -/
structure Crypto (X : Type) where
  aead : Aead
  sha256 : Bytes → Bytes
  sha256_length : ∀ m, (sha256 m).length = 32
  x25519Public : Bytes → Bytes
  x25519Shared : Bytes → Bytes → Bytes
  x509Parse : Mem → Nat → Option X
  x509CheckHostname : X → Bytes → Int

namespace Crypto

variable {X : Type} (K : Crypto X)

/-- `hmac_sha256`. -/
def hmacSha256 (key msg : Bytes) : Bytes :=
  let key := if 64 < key.length then K.sha256 key else key
  let k0 := key ++ List.replicate (64 - key.length) 0
  K.sha256 (k0.map (· ^^^ 0x5c) ++ K.sha256 (k0.map (· ^^^ 0x36) ++ msg))

/-- `hkdf_extract`. -/
def hkdfExtract (salt ikm : Bytes) : Bytes :=
  K.hmacSha256 (if salt = [] then List.replicate 32 0 else salt) ikm

/-- The blocks of `hkdf_expand` from a counter on, with the block before. -/
def hkdfBlocks (prk info : Bytes) : Nat → UInt8 → Bytes → Bytes
  | 0, _, _ => []
  | n + 1, ctr, prev =>
      let block := K.hmacSha256 prk (prev ++ info ++ [ctr])
      block ++ hkdfBlocks prk info n (ctr + 1) block

/-- `hkdf_expand`. -/
def hkdfExpand (prk info : Bytes) (olen : Nat) : Bytes :=
  (K.hkdfBlocks prk info ((olen + 31) / 32) 1 []).take olen

/-- `hkdf_expand_label`; labels are the ASCII bytes after the `tls13 ` prefix. -/
def hkdfExpandLabel (secret : Bytes) (label : List Char) (ctx : Bytes) (olen : Nat) : Bytes :=
  let text := ("tls13 ".toList ++ label).map fun ch => UInt8.ofNat ch.toNat
  K.hkdfExpand secret
    ([UInt8.ofNat (olen / 256), UInt8.ofNat olen, UInt8.ofNat text.length] ++ text ++
      [UInt8.ofNat ctx.length] ++ ctx) olen

/-- `tls13_derive_secret`. -/
def deriveSecret (secret : Bytes) (label : List Char) (hash : Bytes) : Bytes :=
  K.hkdfExpandLabel secret label hash 32

end Crypto

/-- The first bytes of a list as a fixed-size value. -/
def toFixed (n : Nat) (bs : Bytes) : Vector UInt8 n := Vector.ofFn fun i => (bs[i.val]?).getD 0

/-- The state shared by all connections. `lastCert` is `tls_last_cert` while
`tls_last_cert_valid` is set. -/
structure TlsGlobals (X : Type) where
  conns : Fin 4 → TlsConn
  lastCert : Option X
  recBuf : Mem
  savedHsSecret : Bytes

/-- `tls13_get_last_cert`. -/
def tls13GetLastCert {X : Type} (g : TlsGlobals X) : Option X := g.lastCert

/-- `tls13_check_hostname`. -/
def tls13CheckHostname {X : Type} (K : Crypto X) (g : TlsGlobals X) (hostname : Bytes) : Int :=
  match g.lastCert with
  | none => -1
  | some x => K.x509CheckHostname x hostname

/-- What a call of `tls13_connect` is given: its arguments, the random bytes it
draws and what `read_record` will return. -/
structure ConnectArgs where
  tcpId : Int
  host : Option Bytes
  random : Bytes
  priv : Bytes
  wire : Wire

/-- A length in two bytes. -/
def be16 (n : Nat) : Bytes := [UInt8.ofNat (n / 256), UInt8.ofNat n]

/-- `send_client_hello`, the server name extension. -/
def sniExtension : Option Bytes → Bytes
  | none => []
  | some host =>
      [0x00, 0x00] ++ be16 (5 + host.length) ++ be16 (3 + host.length) ++ [0x00] ++
        be16 host.length ++ host

/-- `send_client_hello`: the message that is sent and hashed. -/
def clientHello (host : Option Bytes) (random cPub : Bytes) : Bytes :=
  let exts := sniExtension host ++
    [0x00, 0x2b, 0x00, 0x03, 0x02, 0x03, 0x04] ++
    [0x00, 0x33, 0x00, 38, 0x00, 36, 0x00, 0x1d, 0x00, 32] ++ cPub ++
    [0x00, 0x0a, 0x00, 4, 0x00, 2, 0x00, 0x1d] ++
    [0x00, 0x0d, 0x00, 4, 0x00, 2, 0x08, 0x04]
  let body := [0x03, 0x03] ++ random ++ [0] ++ [0, 2, 0x13, 0x01] ++ [1, 0] ++
    be16 exts.length ++ exts
  [1, UInt8.ofNat (body.length / 65536), UInt8.ofNat (body.length / 256),
    UInt8.ofNat body.length] ++ body

/-- A 16-bit number in memory. -/
def rd16 (d : Mem) (p : Nat) : Nat := (d p).toNat * 256 + (d (p + 1)).toNat

/-- A 24-bit number in memory. -/
def rd24 (d : Mem) (p : Nat) : Nat :=
  (d p).toNat * 65536 + (d (p + 1)).toNat * 256 + (d (p + 2)).toNat

/-- `parse_server_hello`, the loop over extensions. Every round advances by at
least four bytes, so the end of the extensions is enough fuel. -/
def findKeyShare (d : Mem) (extEnd : Nat) : Nat → Nat → Option Bytes
  | 0, _ => none
  | fuel + 1, p =>
      if p + 4 ≤ extEnd then
        let etype := rd16 d p
        let elen := rd16 d (p + 2)
        if etype = 0x0033 then
          if elen < 36 then none
          else if rd16 d (p + 4) ≠ 0x001d then none
          else some (slice d (p + 8) 32)
        else findKeyShare d extEnd fuel (p + 4 + elen)
      else none

/-- The loop ends at the end of the extensions, not for want of fuel. -/
theorem findKeyShare_fuel (d : Mem) (extEnd fuel p k : Nat) (h : extEnd < p + 4 * fuel + 4) :
    findKeyShare d extEnd (fuel + k) p = findKeyShare d extEnd fuel p := by
  induction fuel generalizing p with
  | zero =>
      cases k with
      | zero => rfl
      | succ k =>
          have hend : ¬ p + 4 ≤ extEnd := by omega
          simp only [findKeyShare, if_neg hend]
  | succ fuel ih =>
      have hnext := ih (p + 4 + rd16 d (p + 2)) (by omega)
      simp only [Nat.add_right_comm fuel 1 k, findKeyShare, hnext]

/-- `parse_server_hello`: the server's X25519 key. -/
def parseServerHello (d : Mem) (len : Nat) : Option Bytes :=
  if len < 4 ∨ d 0 ≠ 2 then none
  else if len ≤ 38 then none
  else
    let p := 39 + (d 38).toNat + 3
    if len < p + 2 then none
    else
      let extEnd := p + 2 + rd16 d p
      findKeyShare d extEnd extEnd (p + 2)

/-- `tls13_connect`, the loop that skips up to five ChangeCipherSpec records in
front of the ServerHello: the record, the rest of the wire and the buffer. -/
def readServerHello : Nat → Mem → Wire → Option (TlsRecord × Wire) × Mem
  | _, mem, [] => (none, mem)
  | _, mem, none :: _ => (none, mem)
  | tries, mem, some r :: w =>
      let mem := overlay r.data mem
      if r.type = changeCipherType then
        if 5 < tries + 1 then (none, mem) else readServerHello (tries + 1) mem w
      else if r.type = alertType then (none, mem)
      else (some (r, w), mem)

/-- The secrets of `derive_hs_keys`. -/
structure HsSecrets where
  hsSecret : Bytes
  sTraffic : Bytes
  cTraffic : Bytes

section Connect
variable {X : Type} (K : Crypto X)

/-- `derive_hs_keys`, the key schedule. -/
def hsSecrets (ecdhe th1 : Bytes) : HsSecrets :=
  let zero32 := List.replicate 32 0
  let early := K.hkdfExtract zero32 zero32
  let derived1 := K.deriveSecret early "derived".toList (K.sha256 [])
  let hsSec := K.hkdfExtract derived1 ecdhe
  { hsSecret := hsSec
    sTraffic := K.deriveSecret hsSec "s hs traffic".toList th1
    cTraffic := K.deriveSecret hsSec "c hs traffic".toList th1 }

/-- The write key of a traffic secret. -/
def trafficKey (secret : Bytes) : Key := toFixed 16 (K.hkdfExpandLabel secret "key".toList [] 16)

/-- The IV of a traffic secret. -/
def trafficIv (secret : Bytes) : Nonce := toFixed 12 (K.hkdfExpandLabel secret "iv".toList [] 12)

/-- `derive_hs_keys`. -/
def deriveHsKeys (c : TlsConn) (th1 : Bytes) : TlsConn :=
  let s := hsSecrets K c.ecdhe th1
  { c with
    cHsTraffic := s.cTraffic
    hsSKey := trafficKey K s.sTraffic
    hsSIv := trafficIv K s.sTraffic
    hsCKey := trafficKey K s.cTraffic
    hsCIv := trafficIv K s.cTraffic
    hsSSeq := 0
    hsCSeq := 0 }

/-- `derive_app_keys`. -/
def deriveAppKeys (c : TlsConn) (savedHsSecret th2 : Bytes) : TlsConn :=
  let derived2 := K.deriveSecret savedHsSecret "derived".toList (K.sha256 [])
  let master := K.hkdfExtract derived2 (List.replicate 32 0)
  let sTraffic := K.deriveSecret master "s ap traffic".toList th2
  let cTraffic := K.deriveSecret master "c ap traffic".toList th2
  { c with
    apSKey := trafficKey K sTraffic
    apSIv := trafficIv K sTraffic
    apCKey := trafficKey K cTraffic
    apCIv := trafficIv K cTraffic
    apSSeq := 0
    apCSeq := 0 }

/-- The offsets of the messages the scan of a decrypted record visits. Every
round advances by at least four bytes. -/
def hsOffsets (d : Mem) (dlen : Nat) : Nat → Nat → List Nat
  | 0, _ => []
  | fuel + 1, hp =>
      if hp + 4 ≤ dlen then hp :: hsOffsets d dlen fuel (hp + 4 + rd24 d (hp + 1)) else []

/-- The scan ends at the end of the record, not for want of fuel. -/
theorem hsOffsets_fuel (d : Mem) (dlen fuel hp k : Nat) (h : dlen < hp + 4 * fuel + 4) :
    hsOffsets d dlen (fuel + k) hp = hsOffsets d dlen fuel hp := by
  induction fuel generalizing hp with
  | zero =>
      cases k with
      | zero => rfl
      | succ k =>
          have hend : ¬ hp + 4 ≤ dlen := by omega
          simp only [hsOffsets, if_neg hend]
  | succ fuel ih =>
      have hnext := ih (hp + 4 + rd24 d (hp + 1)) (by omega)
      simp only [Nat.add_right_comm fuel 1 k, hsOffsets, hnext]

/-- The certificate part of the scan: what `x509_parse` returns for a
Certificate message, if it is called. -/
def certAt (d : Mem) (hp : Nat) : Option (Option X) :=
  let hsLen := rd24 d (hp + 1)
  if d hp = 11 ∧ 4 < hsLen then
    let cpEnd := hp + 4 + hsLen
    let cp := if hp + 4 < cpEnd then hp + 5 else hp + 4
    if cp + 3 ≤ cpEnd then
      let cp := cp + 3
      if cp + 3 ≤ cpEnd then
        let cderLen := rd24 d cp
        let cp := cp + 3
        if cp + cderLen ≤ cpEnd then some (K.x509Parse (fun i => d (cp + i)) cderLen) else none
      else none
    else none
  else none

/-- A decrypted handshake record: the buffer and the length of its content. -/
structure HsRecord where
  mem : Mem
  dlen : Nat

namespace HsRecord

/-- The content of the record. -/
def payload (r : HsRecord) : Bytes := slice r.mem 0 r.dlen

/-- The offsets of its messages. -/
def offsets (r : HsRecord) : List Nat := hsOffsets r.mem r.dlen r.dlen 0

end HsRecord

/-- The state of the loop over the server's flight. -/
structure FlightState (X : Type) where
  seq : UInt64
  transcript : List Bytes
  gotFin : Bool
  lastCert : Option X
  mem : Mem

/-- The scan of one handshake record: a Finished of any content is enough, and
every Certificate message replaces the stored certificate. -/
def scanRecord (st : FlightState X) (r : HsRecord) : FlightState X :=
  r.offsets.foldl (fun st hp =>
    { st with
      gotFin := st.gotFin || decide (r.mem hp = 20)
      lastCert := (certAt K r.mem hp).getD st.lastCert }) st

/-- The loop of `tls13_connect` over the server's flight. The result says
whether it ended without a failed read or an alert. -/
def flightLoop (key : Key) (iv : Nonce) : Nat → FlightState X → Wire → Bool × FlightState X
  | 0, st, _ => (true, st)
  | pass + 1, st, w =>
      if st.gotFin then (true, st)
      else
        match w with
        | [] => (false, st)
        | none :: _ => (false, st)
        | some r :: w =>
            let st := { st with mem := overlay r.data st.mem }
            if r.type = alertType then (false, st)
            else if r.type ≠ appDataType then flightLoop key iv pass st w
            else
              let d := decryptRecord K.aead key iv st.seq r.data
              -- A matching tag leaves the plaintext in the buffer.
              let pt := if r.data.length < 16 then []
                else (openRecord K.aead key iv st.seq r.data).getD []
              let st := { st with seq := d.2, mem := overlay pt st.mem }
              match d.1 with
              | none => flightLoop key iv pass st w
              | some (ict, content) =>
                  if ict = handshakeType then
                    let rec' : HsRecord := ⟨st.mem, content.length⟩
                    let st := { st with transcript := st.transcript ++ [rec'.payload] }
                    flightLoop key iv pass (scanRecord K st rec') w
                  else flightLoop key iv pass st w

/-- The Finished message of a traffic secret over a transcript. -/
def verifyData (traffic : Bytes) (transcript : List Bytes) : Bytes :=
  K.hmacSha256 (K.hkdfExpandLabel traffic "finished".toList [] 32) (K.sha256 transcript.flatten)

/-- The client's side after the flight: application keys, then its Finished. -/
def finishConnect (c : TlsConn) (savedHsSecret : Bytes) : TlsConn :=
  let c := deriveAppKeys K c savedHsSecret (K.sha256 c.transcript.flatten)
  let fin := [20, 0, 0, 32] ++ verifyData K c.cHsTraffic c.transcript
  { c with transcript := c.transcript ++ [fin], hsCSeq := c.hsCSeq + 1, state := 1 }

/-- `tls13_connect`, its failure exit: the entry is cleared, what was stored
elsewhere stays. -/
def failConnect (g : TlsGlobals X) (i : Fin 4) : Int × TlsGlobals X :=
  (-1, { g with conns := Function.update g.conns i .zero })

/-- `tls13_connect` after the loop over the flight. -/
def endFlight (g : TlsGlobals X) (i : Fin 4) (c : TlsConn) (res : Bool × FlightState X) :
    Int × TlsGlobals X :=
  let g := { g with lastCert := res.2.lastCert, recBuf := res.2.mem }
  if res.1 = false ∨ res.2.gotFin = false then failConnect g i
  else
    let c := { c with hsSSeq := res.2.seq, transcript := res.2.transcript }
    (0, { g with conns := Function.update g.conns i (finishConnect K c g.savedHsSecret) })

/-- `tls13_connect` from the shared secret on. -/
def connectFlight (g : TlsGlobals X) (i : Fin 4) (c : TlsConn) (w : Wire) : Int × TlsGlobals X :=
  let th1 := K.sha256 c.transcript.flatten
  let g := { g with savedHsSecret := (hsSecrets K c.ecdhe th1).hsSecret }
  let c := deriveHsKeys K c th1
  endFlight K g i c (flightLoop K c.hsSKey c.hsSIv 30
    ⟨c.hsSSeq, c.transcript, false, g.lastCert, g.recBuf⟩ w)

/-- `tls13_connect`: the return value and the shared state after it. -/
def tls13Connect (g : TlsGlobals X) (a : ConnectArgs) : Int × TlsGlobals X :=
  match (List.finRange 4).find? fun i => (g.conns i).used = false with
  | none => (-1, g)
  | some i =>
      let cPub := K.x25519Public a.priv
      let ch := clientHello a.host a.random cPub
      match readServerHello 0 g.recBuf a.wire with
      | (none, mem) => failConnect { g with recBuf := mem } i
      | (some (r, w), mem) =>
          let g := { g with recBuf := mem }
          if r.type ≠ handshakeType then failConnect g i
          else
            match parseServerHello mem r.data.length with
            | none => failConnect g i
            | some sPub =>
                connectFlight K g i
                  { TlsConn.zero with
                    used := true
                    tcpId := a.tcpId
                    cPriv := a.priv
                    cPub := cPub
                    transcript := [ch, r.data]
                    sPub := sPub
                    ecdhe := K.x25519Shared a.priv sPub } w

end Connect

end OriaOS.Tls
