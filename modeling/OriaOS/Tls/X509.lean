import OriaOS.Tls.Handshake

/-!
# The certificate parser

`x509.c`: the primitives that walk over tags and lengths, the parser of a certificate
and the check of a host name. A function that moves a position returns the new one,
also when it fails and the source has moved it.

Positions and lengths are natural numbers: the length of a certificate comes from three
bytes, and no sum of theirs wraps. A string of the source ends at its first zero byte;
`X509Cert` holds what was stored in front of the terminator.
-/

namespace OriaOS.Tls

/-! ## Tags and lengths -/

def asn1Sequence : UInt8 := 0x30
def asn1Set : UInt8 := 0x31
def asn1Integer : UInt8 := 0x02
def asn1BitString : UInt8 := 0x03
def asn1OctetString : UInt8 := 0x04
def asn1Oid : UInt8 := 0x06
def asn1UtcTime : UInt8 := 0x17
def asn1GenTime : UInt8 := 0x18
def asn1Cont0 : UInt8 := 0xA0
def asn1Cont3 : UInt8 := 0xA3

/-- The number in the bytes of a long length. -/
def longLength (d : Mem) (pos n : Nat) : Nat :=
  (List.range n).foldl (fun len i => len * 256 + (d (pos + i)).toNat) 0

/-- `asn1_length`: the length, none for -1, and the position. A number of 2 ^ 31 or more is
negative for the callers. -/
def asn1Length (d : Mem) (pos dlen : Nat) : Option Nat × Nat :=
  if dlen ≤ pos then (none, pos)
  else
    let b := (d pos).toNat
    if b < 0x80 then (some b, pos + 1)
    else if b = 0x80 ∨ b = 0xFF then (none, pos + 1)
    else
      let n := b - 0x80
      if 4 < n ∨ dlen < pos + 1 + n then (none, pos + 1)
      else
        let len := longLength d (pos + 1) n
        (if len < 2147483648 then some len else none, pos + 1 + n)

/-- `asn1_peek`: tag, length of the content and length of the header. -/
def asn1Peek (d : Mem) (pos dlen : Nat) : Option (UInt8 × Nat × Nat) :=
  if dlen ≤ pos then none
  else
    match asn1Length d (pos + 1) dlen with
    | (none, _) => none
    | (some clen, p) => if dlen - p < clen then none else some (d pos, clen, p - pos)

/-- `asn1_skip`: success, and the position. -/
def asn1Skip (d : Mem) (pos dlen : Nat) : Bool × Nat :=
  if dlen ≤ pos then (false, pos)
  else
    match asn1Length d (pos + 1) dlen with
    | (none, p) => (false, p)
    | (some clen, p) => (decide (p + clen ≤ dlen), p + clen)

/-- `asn1_enter`: the length of the content and where it starts. -/
def asn1Enter (d : Mem) (pos dlen : Nat) (tag : UInt8) : Option (Nat × Nat) :=
  if dlen ≤ pos then none
  else if d pos ≠ tag then none
  else
    match asn1Length d (pos + 1) dlen with
    | (none, _) => none
    | (some clen, p) => if dlen < p + clen then none else some (clen, p)

/-- `asn1_read_oid`: the content, none for -1, and the position. -/
def asn1ReadOid (d : Mem) (pos dlen buflen : Nat) : Option Bytes × Nat :=
  if dlen ≤ pos then (none, pos)
  else if d pos ≠ asn1Oid then (none, pos)
  else
    match asn1Length d (pos + 1) dlen with
    | (none, p) => (none, p)
    | (some clen, p) =>
        if buflen < clen ∨ dlen < p + clen then (none, p) else (some (slice d p clen), p + clen)

/-- The tags of the string types that are read. -/
def stringTags : List UInt8 := [0x0C, 0x13, 0x16, 0x14]

/-- `asn1_read_string`: what it stores, none for -1. -/
def asn1ReadString (d : Mem) (pos dlen buflen : Nat) : Option Bytes :=
  if dlen ≤ pos then none
  else if d pos ∉ stringTags then none
  else
    match asn1Length d (pos + 1) dlen with
    | (none, _) => none
    | (some clen, p) => if dlen < p + clen then none else some (slice d p (min clen (buflen - 1)))

/-! ## The fields -/

structure X509Cert where
  subjectCn : Bytes
  issuerCn : Bytes
  notBefore : Bytes
  notAfter : Bytes
  keyType : Nat
  keyBits : Nat
  san : List Bytes
deriving DecidableEq

/-- The text of a time that could not be read. -/
def noTime : Bytes := "0000-00-00 00:00:00".toList.map fun ch => UInt8.ofNat ch.toNat

/-- The year of a `UTCTime`. -/
def utcYear (v0 v1 : UInt8) : Bytes :=
  let yy : Int := ((v0.toNat : Int) - 48) * 10 + ((v1.toNat : Int) - 48)
  let yr := if yy < 50 then 2000 + yy else 1900 + yy
  [yr.tdiv 1000, (yr.tdiv 100).tmod 10, (yr.tdiv 10).tmod 10, yr.tmod 10].map fun x =>
    UInt8.ofInt (48 + x)

/-- The parts of a time behind the year, from their first digit on. -/
def timeText (d : Mem) (p : Nat) : Bytes :=
  [45, d p, d (p + 1), 45, d (p + 2), d (p + 3), 32, d (p + 4), d (p + 5), 58, d (p + 6),
    d (p + 7), 58, d (p + 8), d (p + 9)]

/-- `parse_time`: the text, and the position. -/
def parseTime (d : Mem) (pos dlen : Nat) : Bytes × Nat :=
  if dlen ≤ pos then (noTime, pos)
  else
    match asn1Length d (pos + 1) dlen with
    | (none, p) => (noTime, p)
    | (some clen, p) =>
        if dlen < p + clen then (noTime, p)
        else if d pos = asn1UtcTime ∧ 12 ≤ clen then
          (utcYear (d p) (d (p + 1)) ++ timeText d (p + 2), p + clen)
        else if d pos = asn1GenTime ∧ 14 ≤ clen then
          (slice d p 4 ++ timeText d (p + 4), p + clen)
        else (noTime, p + clen)

/-- `OID_CN`. -/
def oidCn : Bytes := [0x55, 0x04, 0x03]

/-- `OID_SAN`. -/
def oidSan : Bytes := [0x55, 0x1D, 0x11]

/-- The inner loop of `parse_name_cn`, over the attributes of a set: what `cn` is when the
function returns from there. -/
def attributeLoop (d : Mem) (rdnEnd : Nat) : Nat → Nat → Option Bytes
  | 0, _ => none
  | fuel + 1, p2 =>
      if p2 < rdnEnd then
        match asn1Peek d p2 rdnEnd with
        | none => none
        | some (t2, cl2, h2) =>
            if t2 = asn1Sequence then
              let seqStart := p2 + h2
              let seqEnd := seqStart + cl2
              let oid := asn1ReadOid d seqStart seqEnd 16
              if oid.1 = some oidCn then some ((asn1ReadString d oid.2 seqEnd 128).getD [])
              else attributeLoop d rdnEnd fuel seqEnd
            else attributeLoop d rdnEnd fuel (p2 + h2 + cl2)
      else none

/-- The outer loop of `parse_name_cn`. Every element has at least two bytes. -/
def nameLoop (d : Mem) (end' : Nat) : Nat → Nat → Bytes
  | 0, _ => []
  | fuel + 1, pos =>
      if pos < end' then
        match asn1Peek d pos end' with
        | none => []
        | some (tag, clen, hdr) =>
            if tag = asn1Set then
              let rdnStart := pos + hdr
              let rdnEnd := rdnStart + clen
              match attributeLoop d rdnEnd rdnEnd rdnStart with
              | some cn => cn
              | none => nameLoop d end' fuel rdnEnd
            else nameLoop d end' fuel (pos + hdr + clen)
      else []

/-- `parse_name_cn`. -/
def parseNameCn (d : Mem) (pos end' : Nat) : Bytes := nameLoop d end' end' pos

/-- The loop of `parse_san`. -/
def sanLoop (d : Mem) (len end' : Nat) : Nat → Nat → List Bytes → List Bytes
  | 0, _, san => san
  | fuel + 1, pos, san =>
      if pos < end' ∧ san.length < 4 then
        match asn1Length d (pos + 1) len with
        | (none, _) => san
        | (some gl, p) =>
            sanLoop d len end' fuel (p + gl)
              (if d pos = 0x82 then san ++ [slice d p (min gl 127)] else san)
      else san

/-- `parse_san`, on the memory behind its pointer. -/
def parseSan (d : Mem) (len : Nat) (san : List Bytes) : List Bytes :=
  match asn1Enter d 0 len asn1Sequence with
  | none => san
  | some (clen, pos) => sanLoop d len (pos + clen) (pos + clen) pos san

/-- The size of an RSA key: the modulus without a leading zero byte. -/
def rsaBits (d : Mem) (pos spkiEnd : Nat) : Option Nat :=
  if spkiEnd ≤ pos ∨ d pos ≠ asn1BitString then none
  else
    match asn1Length d (pos + 1) spkiEnd with
    | (none, _) => none
    | (some blen, p) =>
        if blen < 2 then none
        else
          let iend := p + 1 + blen - 1
          match asn1Enter d (p + 1) iend asn1Sequence with
          | none => none
          | some (_, inner) =>
              if iend ≤ inner ∨ d inner ≠ asn1Integer then none
              else
                match asn1Length d (inner + 1) iend with
                | (none, _) => none
                | (some mlen, q) =>
                    if mlen = 0 then none
                    else some ((if d q = 0 then mlen - 1 else mlen) * 8)

/-- The size of a key on a curve. -/
def ecBits (d : Mem) (pos spkiEnd : Nat) : Option Nat :=
  if spkiEnd ≤ pos ∨ d pos ≠ asn1BitString then none
  else
    match asn1Length d (pos + 1) spkiEnd with
    | (none, _) => none
    | (some blen, _) => if blen = 0 then none else some ((blen - 1) * 4)

/-- `parse_spki`: the type and the size of the key, zero where it stores none. -/
def parseSpki (d : Mem) (pos end' : Nat) : Nat × Nat :=
  match asn1Enter d pos end' asn1Sequence with
  | none => (0, 0)
  | some (clen, pos) =>
      let spkiEnd := pos + clen
      match asn1Enter d pos spkiEnd asn1Sequence with
      | none => (0, 0)
      | some (clen, pos) =>
          match (asn1ReadOid d pos (pos + clen) 16).1 with
          | some [0x2A, 0x86, _, _, _, _, _, _, _] => (0, (rsaBits d (pos + clen) spkiEnd).getD 0)
          | some [0x2A, 0x86, _, _, _, _, _] => (1, (ecBits d (pos + clen) spkiEnd).getD 0)
          | _ => (2, 0)

/-! ## The certificate -/

/-- What the loop of `x509_parse` does with one extension. -/
def readExtension (d : Mem) (pos extEnd : Nat) (san : List Bytes) : List Bytes :=
  let oid := asn1ReadOid d pos extEnd 16
  let flag := if oid.2 < extEnd ∧ d oid.2 = 0x01 then asn1Skip d oid.2 extEnd else (true, oid.2)
  if flag.1 ∧ flag.2 < extEnd ∧ d flag.2 = asn1OctetString then
    match asn1Length d (flag.2 + 1) extEnd with
    | (none, _) => san
    | (some oval, p) =>
        if oid.1 = some oidSan then parseSan (fun i => d (p + i)) oval san else san
  else san

/-- The loop of `x509_parse` over the extensions. -/
def extensionLoop (d : Mem) (end' : Nat) : Nat → Nat → List Bytes → List Bytes
  | 0, _, san => san
  | fuel + 1, pos, san =>
      if pos < end' then
        match asn1Enter d pos end' asn1Sequence with
        | none => san
        | some (extLen, p) =>
            extensionLoop d end' fuel (p + extLen) (readExtension d p (p + extLen) san)
      else san

/-- The field `[3]`. The length that it states is not checked against the end. -/
def parseExtensions (d : Mem) (pos tbsEnd : Nat) : List Bytes :=
  if pos < tbsEnd ∧ d pos = asn1Cont3 then
    match asn1Length d (pos + 1) tbsEnd with
    | (none, _) => []
    | (some wrapLen, p) =>
        match asn1Enter d p (p + wrapLen) asn1Sequence with
        | none => []
        | some (len, q) => extensionLoop d (q + len) (q + len) q []
  else []

/-- The loop over the fields `[1]` and `[2]`. A field that cannot be skipped ends it behind
the length of the field. -/
def skipUnique (d : Mem) (tbsEnd : Nat) : Nat → Nat → Nat
  | 0, pos => pos
  | fuel + 1, pos =>
      if pos < tbsEnd ∧ (d pos = 0xA1 ∨ d pos = 0xA2) then
        match asn1Skip d pos tbsEnd with
        | (true, p) => skipUnique d tbsEnd fuel p
        | (false, p) => p
      else pos

/-- A field that is skipped where it is there; none where it cannot be skipped. -/
def skipIf (d : Mem) (pos tbsEnd : Nat) (tag : UInt8) : Option Nat :=
  if pos < tbsEnd ∧ d pos = tag then
    match asn1Skip d pos tbsEnd with
    | (true, p) => some p
    | (false, _) => none
  else some pos

/-- A `Name`: its common name, and the position behind it. -/
def parseName (d : Mem) (pos tbsEnd : Nat) : Option (Bytes × Nat) :=
  match asn1Peek d pos tbsEnd with
  | none => none
  | some (tag, clen, hdr) =>
      if tag ≠ asn1Sequence then none
      else some (parseNameCn d (pos + hdr) (pos + hdr + clen), pos + hdr + clen)

/-- The field of the key: type and size, and the position behind it. -/
def parseKey (d : Mem) (pos tbsEnd : Nat) : (Nat × Nat) × Nat :=
  match asn1Peek d pos tbsEnd with
  | none => ((0, 0), pos)
  | some (tag, clen, hdr) =>
      if tag = asn1Sequence then (parseSpki d pos (pos + hdr + clen), pos + hdr + clen)
      else ((0, 0), pos)

/-- `x509_parse`. -/
def x509Parse (d : Mem) (derLen : Nat) : Option X509Cert := do
  let (outerLen, pos) ← asn1Enter d 0 derLen asn1Sequence
  let (tbsLen, pos) ← asn1Enter d pos (pos + outerLen) asn1Sequence
  let tbsEnd := pos + tbsLen
  let pos ← skipIf d pos tbsEnd asn1Cont0
  let pos ← skipIf d pos tbsEnd asn1Integer
  let pos ← skipIf d pos tbsEnd asn1Sequence
  let (issuerCn, pos) ← parseName d pos tbsEnd
  let (valLen, pos) ← asn1Enter d pos tbsEnd asn1Sequence
  let valEnd := pos + valLen
  let notBefore := parseTime d pos valEnd
  let notAfter := parseTime d notBefore.2 valEnd
  let (subjectCn, pos) ← parseName d valEnd tbsEnd
  let key := parseKey d pos tbsEnd
  let san := parseExtensions d (skipUnique d tbsEnd tbsEnd key.2) tbsEnd
  return ⟨subjectCn, issuerCn, notBefore.1, notAfter.1, key.1.1, key.1.2, san⟩

/-! ## The host name -/

/-- The letter that `xstricmp` compares. -/
def lower (ch : UInt8) : UInt8 := if 65 ≤ ch ∧ ch ≤ 90 then ch + 32 else ch

/-- `xstricmp`, on strings without their terminators. -/
def xstricmp : Bytes → Bytes → Int
  | a :: as, b :: bs =>
      if lower a ≠ lower b then ((lower a).toNat : Int) - (lower b).toNat else xstricmp as bs
  | a :: _, [] => a.toNat
  | [], b :: _ => -(b.toNat : Int)
  | [], [] => 0

/-- `wildcard_match`. -/
def wildcardMatch (pattern hostname : Bytes) : Bool :=
  match pattern with
  | 42 :: 46 :: suffix =>
      match hostname.dropWhile (· ≠ 46) with
      | [] => false
      | _ :: rest => xstricmp rest suffix = 0
  | _ => xstricmp pattern hostname = 0

/-- What a reader of a string takes of the stored bytes. -/
def cString (stored : Bytes) : Bytes := stored.takeWhile (· ≠ 0)

/-- `x509_check_hostname`. -/
def x509CheckHostname (cert : X509Cert) (hostname : Bytes) : Bool :=
  cert.san.any (fun name => wildcardMatch (cString name) hostname) ||
    (cString cert.subjectCn ≠ [] && wildcardMatch (cString cert.subjectCn) hostname)

end OriaOS.Tls
