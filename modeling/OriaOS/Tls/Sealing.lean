import OriaOS.Tls.Gcm

/-!
# Sealing and opening a record

`send_encrypted` on one side, `read_record` and `decrypt_record` on the other. The
sender bounds the plaintext by `TLS_REC_BUF`, the receiver the whole record, which is
longer by the tag.
-/

namespace OriaOS.Tls

/-! ## Sending -/

/-- `tcp_send_all`: the pieces it passes to the connection. `fuel` bounds the loop. -/
def tcpSendAll : Nat → Bytes → List Bytes
  | 0, _ => []
  | fuel + 1, data =>
      if data = [] then [] else data.take 1400 :: tcpSendAll fuel (data.drop 1400)

/-- The pieces of a whole text. -/
def sendPieces (data : Bytes) : List Bytes := tcpSendAll data.length data

/-- `hdr` in `send_encrypted`. -/
def recordHeader (clen : Nat) : Bytes := recordAad clen

/-- `send_encrypted`: the pieces sent and the next sequence number, none for -1. The
length is one whose successor does not wrap. -/
def sendEncrypted (key : Key) (iv : Nonce) (seq : UInt64) (ct : UInt8) (data : Bytes) :
    Option (List Bytes × UInt64) :=
  if recBufSize < data.length + 1 then none
  else
    let plain := data ++ [ct]
    let clen := plain.length + 16
    let out := aes128gcmEncrypt (aes128EncryptBlock (aes128Setkey key)) (makeNonce iv seq)
      (recordAad clen) plain
    some (sendPieces (recordHeader clen) ++ sendPieces out.1 ++ sendPieces out.2.toList, seq + 1)

/-! ## Receiving -/

/-- `tcp_read_exact` on the bytes that arrive, none when too few do. -/
def tcpReadExact (n : Nat) (input : Bytes) : Option ({data : Bytes // data.length = n} × Bytes) :=
  if h : n ≤ input.length then
    some (⟨input.take n, List.length_take_of_le h⟩, input.drop n)
  else none

/-- `rlen` of a header. -/
def recordLen (hdr : Bytes) : Nat := (hdr.getD 3 0).toNat * 256 + (hdr.getD 4 0).toNat

/-- `read_record`: the record and what is left to read. -/
def readRecord (input : Bytes) : Option (TlsRecord × Bytes) :=
  match tcpReadExact 5 input with
  | none => none
  | some (hdr, input) =>
      if h : recordLen hdr.1 ≤ recBufSize then
        (tcpReadExact (recordLen hdr.1) input).map fun r =>
          (⟨hdr.1.getD 0 0, r.1.1, r.1.2.le.trans h⟩, r.2)
      else none

/-- What is sealed is read back: the type and the payload, and both sequence numbers
are one further. -/
def RoundTrip (key : Key) (iv : Nonce) (seq : UInt64) (ct : UInt8) (data : Bytes) : Prop :=
  ∃ out, sendEncrypted key iv seq ct data = some (out, seq + 1) ∧
    ∀ rest, ∃ r, readRecord (out.flatten ++ rest) = some (r, rest) ∧ r.type = appDataType ∧
      decryptRecord gcmAead key iv seq r.data = (some (ct, data), seq + 1)

/-! ## What is sent -/

theorem tcpSendAll_flatten {fuel : Nat} {data : Bytes} (h : data.length ≤ fuel) :
    (tcpSendAll fuel data).flatten = data := by
  induction fuel generalizing data with
  | zero =>
      rw [List.length_eq_zero_iff.mp (Nat.le_zero.mp h)]
      rfl
  | succ fuel ih =>
      rw [tcpSendAll]
      split
      · next hnil => rw [hnil, List.flatten_nil]
      · next hne =>
        have hpos := List.length_pos_of_ne_nil hne
        have hrest : (data.drop 1400).length ≤ fuel := by
          rw [List.length_drop]
          omega
        rw [List.flatten_cons, ih hrest, List.take_append_drop]

@[simp] theorem sendPieces_flatten (data : Bytes) : (sendPieces data).flatten = data :=
  tcpSendAll_flatten le_rfl

/-- The ciphertext and the tag of a payload. -/
def sealedBody (key : Key) (iv : Nonce) (seq : UInt64) (ct : UInt8) (data : Bytes) :
    Bytes × Block :=
  aes128gcmEncrypt (aes128EncryptBlock (aes128Setkey key)) (makeNonce iv seq)
    (recordAad (data.length + 17)) (data ++ [ct])

section Sealed
variable (key : Key) (iv : Nonce) (seq : UInt64) (ct : UInt8) (data : Bytes)

theorem sealedBody_length : (sealedBody key iv seq ct data).1.length = data.length + 1 := by
  simp [sealedBody, aes128gcmEncrypt]

/-- A payload that is accepted goes out as a header, the ciphertext and the tag. -/
theorem sendEncrypted_eq (h : data.length + 1 ≤ recBufSize) :
    ∃ out, sendEncrypted key iv seq ct data = some (out, seq + 1) ∧
      out.flatten = recordHeader (data.length + 17) ++
        ((sealedBody key iv seq ct data).1 ++ (sealedBody key iv seq ct data).2.toList) := by
  refine ⟨_, by rw [sendEncrypted, if_neg (by omega)], ?_⟩
  simp [sealedBody]

end Sealed

/-! ## What is read -/

theorem tcpReadExact_append {n : Nat} {xs : Bytes} (h : xs.length = n) (rest : Bytes) :
    tcpReadExact n (xs ++ rest) = some (⟨xs, h⟩, rest) := by
  subst h
  simp [tcpReadExact]

theorem recordLen_header {clen : Nat} (h : clen < 65536) :
    recordLen (recordHeader clen) = clen := by
  simp only [recordLen, recordHeader, recordAad, List.getD_cons_succ, List.getD_cons_zero,
    UInt8.toNat_ofNat']
  omega

/-- The header is read first. -/
theorem readRecord_header (clen : Nat) (input : Bytes) :
    readRecord (recordHeader clen ++ input) =
      if h : recordLen (recordHeader clen) ≤ recBufSize then
        (tcpReadExact (recordLen (recordHeader clen)) input).map fun r =>
          (⟨appDataType, r.1.1, r.1.2.le.trans h⟩, r.2)
      else none := by
  rw [readRecord, tcpReadExact_append (n := 5) rfl]
  rfl

/-- A record that is not too long is read whole. -/
theorem readRecord_append {clen : Nat} {body : Bytes} (hlen : body.length = clen)
    (h : clen ≤ recBufSize) (rest : Bytes) :
    readRecord (recordHeader clen ++ (body ++ rest)) =
      some (⟨appDataType, body, hlen.trans_le h⟩, rest) := by
  have heq : recordLen (recordHeader clen) = clen := by
    apply recordLen_header
    unfold recBufSize at h
    omega
  rw [readRecord_header, dif_pos (heq.trans_le h), tcpReadExact_append (hlen.trans heq.symm)]
  rfl

/-- A record that is too long is not read. -/
theorem readRecord_long {clen : Nat} (h : recBufSize < clen) (hlt : clen < 65536)
    (input : Bytes) : readRecord (recordHeader clen ++ input) = none := by
  rw [readRecord_header, dif_neg]
  rw [recordLen_header hlt]
  exact Nat.not_le.mpr h

/-- The type is found behind the payload, whose zeros are kept. -/
theorem splitInner_append {ct : UInt8} (h : ct ≠ 0) (data : Bytes) :
    splitInner (data ++ [ct]) = some (ct, data) := by
  simp [splitInner, h]

/-! ## The round trip -/

section RoundTrip
variable {key : Key} {iv : Nonce} {seq : UInt64} {ct : UInt8} {data : Bytes}

/-- The body of a record. -/
def wireBody (key : Key) (iv : Nonce) (seq : UInt64) (ct : UInt8) (data : Bytes) : Bytes :=
  (sealedBody key iv seq ct data).1 ++ (sealedBody key iv seq ct data).2.toList

theorem wireBody_length : (wireBody key iv seq ct data).length = data.length + 17 := by
  simp [wireBody, sealedBody_length]

/-- The body of a record is opened to what was sealed in it. -/
theorem openRecord_wireBody :
    openRecord gcmAead key iv seq (wireBody key iv seq ct data) = some (data ++ [ct]) := by
  have hbody := sealedBody_length key iv seq ct data
  rw [openRecord, wireBody_length, Nat.add_sub_assoc (by decide), wireBody, List.take_left' hbody,
    List.drop_left' hbody, gcmAead_openWith]
  exact decrypt_encrypt _ _ _ _

theorem decryptRecord_wireBody (hct : ct ≠ 0) :
    decryptRecord gcmAead key iv seq (wireBody key iv seq ct data) =
      (some (ct, data), seq + 1) := by
  have hlen : (wireBody key iv seq ct data).length = data.length + 17 := wireBody_length
  rw [decryptRecord, if_neg (by omega), openRecord_wireBody, Option.bind_some,
    splitInner_append hct]

theorem roundTrip_of_le (hct : ct ≠ 0) (h : data.length + 17 ≤ recBufSize) :
    RoundTrip key iv seq ct data := by
  obtain ⟨out, hsend, hout⟩ := sendEncrypted_eq key iv seq ct data (by omega)
  have hlen : (wireBody key iv seq ct data).length = data.length + 17 := wireBody_length
  refine ⟨out, hsend, fun rest => ⟨⟨appDataType, _, hlen.trans_le h⟩, ?_, rfl,
    decryptRecord_wireBody hct⟩⟩
  rw [hout, List.append_assoc]
  exact readRecord_append hlen h rest

/-- A record longer than the buffer of the receiver does not come through. -/
theorem not_roundTrip_of_lt (hle : data.length + 1 ≤ recBufSize)
    (h : recBufSize < data.length + 17) : ¬ RoundTrip key iv seq ct data := by
  rintro ⟨out, hsend, hread⟩
  obtain ⟨out', hsend', hout⟩ := sendEncrypted_eq key iv seq ct data hle
  have heq : out = out' := by
    rw [hsend'] at hsend
    simpa using hsend.symm
  obtain ⟨r, hr, -⟩ := hread []
  have hlt : data.length + 17 < 65536 := by
    unfold recBufSize at hle
    omega
  rw [heq, hout, List.append_assoc, readRecord_long h hlt] at hr
  cases hr

end RoundTrip

/-- A payload comes through exactly when its record, with the type and the tag, fits in
the buffer of the receiver. -/
theorem record_round_trip (key : Key) (iv : Nonce) (seq : UInt64) (ct : UInt8) (data : Bytes)
    (hct : ct ≠ 0) (haccepted : data.length + 1 ≤ recBufSize) :
    RoundTrip key iv seq ct data ↔ data.length + 17 ≤ recBufSize := by
  constructor
  · intro h
    by_contra hlt
    exact not_roundTrip_of_lt haccepted (Nat.not_le.mp hlt) h
  · exact roundTrip_of_le hct

/-- Application data that ends in zeros. -/
theorem record_round_trip_zeros :
    RoundTrip (Vector.replicate 16 7) (Vector.replicate 12 1) 5 appDataType [1, 0, 0] :=
  (record_round_trip _ _ _ _ _ (by decide) (by decide)).mpr (by decide)

/-- The longest payload that is accepted makes a record of 16400 bytes. -/
theorem longest_not_read :
    ¬ ∀ (key : Key) (iv : Nonce) (seq : UInt64) (ct : UInt8) (data : Bytes),
      ct ≠ 0 → data.length + 1 ≤ recBufSize → RoundTrip key iv seq ct data := by
  intro h
  have hlen : (List.replicate 16383 (0 : UInt8)).length = 16383 := List.length_replicate
  have hle : (List.replicate 16383 (0 : UInt8)).length + 1 ≤ recBufSize := by rw [hlen]
  refine not_roundTrip_of_lt hle ?_
    (h (Vector.replicate 16 7) (Vector.replicate 12 1) 0 appDataType _ (by decide) hle)
  rw [hlen]
  decide

end OriaOS.Tls
