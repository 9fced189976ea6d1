import OriaOS.Tls.Framing
import OriaOS.Lib.Reading

/-!
# Where the handshake is read

`parse_server_hello` and the scan for certificates as computations that read bytes. They end
with what the handshake makes of a record. Inner lengths are compared with one another, so
they stay inside the record exactly for the records whose extensions and certificates do.
-/

namespace OriaOS.Tls

open OriaOS.Lib OriaOS.Lib.Reading

/-! ## ServerHello -/

/-- `parse_server_hello`, the loop over extensions. -/
def keyShareReading (extEnd : Nat) : Nat → Nat → Reading Nat (Option Bytes)
  | 0, _ => stuck
  | fuel + 1, p =>
      if p + 4 ≤ extEnd then do
        let etype ← Reading.be16 p
        let elen ← Reading.be16 (p + 2)
        if etype = 0x0033 then
          if elen < 36 then pure none
          else do
            let grp ← Reading.be16 (p + 4)
            if grp ≠ 0x001d then pure none
            else lend (List.range' (p + 8) 32) fun d => some (slice d (p + 8) 32)
        else keyShareReading extEnd fuel (p + 4 + elen)
      else pure none

/-- `parse_server_hello`. The extensions have at most 65535 bytes and a round takes at least
four of them. -/
def serverHelloReading (len : Nat) : Reading Nat (Option Bytes) :=
  if len < 4 then pure none
  else do
    let type ← byte 0
    if type ≠ 2 then pure none
    else if len ≤ 38 then pure none
    else do
      let sidLen ← byte 38
      let p := 39 + sidLen.toNat + 3
      if len < p + 2 then pure none
      else do
        let ext ← Reading.be16 p
        keyShareReading (p + 2 + ext) 16384 (p + 2)

/-- The extensions the loop looks at, up to the first key share. -/
def extOffsets (d : Mem) (extEnd : Nat) : Nat → Nat → List Nat
  | 0, _ => []
  | fuel + 1, p =>
      if p + 4 ≤ extEnd then
        p :: if rd16 d p = 0x0033 then [] else extOffsets d extEnd fuel (p + 4 + rd16 d (p + 2))
      else []

/-- An extension whose header lies in the record, and its group and key if it is a key share
long enough for them. -/
structure ExtInside (d : Mem) (len q : Nat) : Prop where
  header : q + 4 ≤ len
  group : rd16 d q = 0x0033 → 36 ≤ rd16 d (q + 2) → q + 6 ≤ len
  key : rd16 d q = 0x0033 → 36 ≤ rd16 d (q + 2) → rd16 d (q + 4) = 0x001d → q + 40 ≤ len

/-- A ServerHello that is left before its extensions, or all of whose extensions that are
looked at lie in the record. -/
def HelloInside (d : Mem) (len : Nat) : Prop :=
  let p := 39 + (d 38).toNat + 3
  d 0 = 2 → p + 2 ≤ len → ∀ q ∈ extOffsets d (p + 2 + rd16 d p) 16384 (p + 2), ExtInside d len q

section Hello
variable {d : Mem} {len extEnd fuel p : Nat}

theorem rd16_lt (d : Mem) (p : Nat) : rd16 d p < 65536 := by
  have h := (d p).toNat_lt
  have h' := (d (p + 1)).toNat_lt
  unfold rd16
  omega

/-- The loop over extensions ends with the key. -/
theorem value_keyShareReading (h : extEnd < p + 4 * fuel + 4) :
    (keyShareReading extEnd (fuel + 1) p).value d = some (findKeyShare d extEnd fuel p) := by
  induction fuel generalizing p with
  | zero =>
      rw [keyShareReading, if_neg (by omega)]
      rfl
  | succ fuel ih =>
      rw [keyShareReading, findKeyShare]
      by_cases hp : p + 4 ≤ extEnd
      · rw [if_pos hp, if_pos hp]
        simp only [value_bind, value_be16, Option.bind_some, value_ite, value_pure, value_lend]
        change (if rd16 d p = 0x0033 then if rd16 d (p + 2) < 36 then some none
            else if rd16 d (p + 4) ≠ 0x001d then some none else some (some (slice d (p + 8) 32))
          else (keyShareReading extEnd (fuel + 1) (p + 4 + rd16 d (p + 2))).value d) = _
        rw [ih (by omega)]
        split
        · split
          · rfl
          · split <;> rfl
        · rfl
      · rw [if_neg hp, if_neg hp]
        rfl

/-- The group and the key of a key share long enough for them. -/
theorem stays_keyShare {q : Nat} :
    Stays (· < len) (Reading.be16 (q + 4) >>= fun grp =>
        if grp ≠ 0x001d then pure none
        else lend (List.range' (q + 8) 32) fun d => some (slice d (q + 8) 32)) d ↔
      q + 6 ≤ len ∧ (rd16 d (q + 4) = 0x001d → q + 40 ≤ len) := by
  rw [stays_be16_bind, stays_ite]
  simp only [stays_pure, stays_lend, range'_below, implies_true, true_and, not_not]
  change _ ∧ (rd16 d (q + 4) = 0x001d → 32 = 0 ∨ q + 8 + 32 ≤ len) ↔ _
  omega

/-- The loop over extensions stays in the record if they do. -/
theorem stays_keyShareReading :
    Stays (· < len) (keyShareReading extEnd fuel p) d ↔
      ∀ q ∈ extOffsets d extEnd fuel p, ExtInside d len q := by
  induction fuel generalizing p with
  | zero => simp [keyShareReading, extOffsets]
  | succ fuel ih =>
      rw [keyShareReading, extOffsets]
      by_cases hp : p + 4 ≤ extEnd
      · rw [if_pos hp, if_pos hp, stays_be16_bind, stays_be16_bind, List.forall_mem_cons]
        change (p < len ∧ p + 1 < len) ∧ (p + 2 < len ∧ p + 2 + 1 < len) ∧
          Stays _ (if rd16 d p = 0x0033 then if rd16 d (p + 2) < 36 then pure none
            else Reading.be16 (p + 4) >>= _
            else keyShareReading extEnd fuel (p + 4 + rd16 d (p + 2))) d ↔ _
        by_cases hshare : rd16 d p = 0x0033
        · rw [if_pos hshare, if_pos hshare]
          by_cases hshort : rd16 d (p + 2) < 36
          · rw [if_pos hshort]
            constructor
            · rintro ⟨⟨-, -⟩, ⟨-, h⟩, -⟩
              exact ⟨⟨h, fun _ h36 => by omega, fun _ h36 => by omega⟩, nofun⟩
            · rintro ⟨⟨h, -, -⟩, -⟩
              exact ⟨by omega, by omega, stays_pure _⟩
          · rw [if_neg hshort, stays_keyShare]
            have hlong : 36 ≤ rd16 d (p + 2) := Nat.le_of_not_lt hshort
            constructor
            · rintro ⟨⟨-, -⟩, ⟨-, h⟩, hgroup, hkey⟩
              exact ⟨⟨h, fun _ _ => hgroup, fun _ _ => hkey⟩, nofun⟩
            · rintro ⟨⟨h, hgroup, hkey⟩, -⟩
              exact ⟨by omega, by omega, hgroup hshare hlong, hkey hshare hlong⟩
        · rw [if_neg hshare, if_neg hshare, ih]
          constructor
          · rintro ⟨⟨-, -⟩, ⟨-, h⟩, hrest⟩
            exact ⟨⟨h, fun h' => absurd h' hshare, fun h' => absurd h' hshare⟩, hrest⟩
          · rintro ⟨⟨h, -, -⟩, hrest⟩
            exact ⟨by omega, by omega, hrest⟩
      · simp [hp]

/-- The parser ends with the key the handshake takes. -/
theorem value_serverHelloReading (d : Mem) (len : Nat) :
    (serverHelloReading len).value d = some (parseServerHello d len) := by
  rw [serverHelloReading, parseServerHello]
  by_cases hlen : len < 4
  · rw [if_pos hlen, if_pos (Or.inl hlen)]
    rfl
  rw [if_neg hlen, value_bind, value_byte, Option.bind_some]
  by_cases htype : d 0 ≠ 2
  · rw [if_pos htype, if_pos (Or.inr htype)]
    rfl
  rw [if_neg htype, if_neg (not_or.mpr ⟨hlen, htype⟩)]
  by_cases hshort : len ≤ 38
  · rw [if_pos hshort, if_pos hshort]
    rfl
  rw [if_neg hshort, if_neg hshort, value_bind, value_byte, Option.bind_some]
  dsimp only
  by_cases hsid : len < 39 + (d 38).toNat + 3 + 2
  · rw [if_pos hsid, if_pos hsid]
    rfl
  rw [if_neg hsid, if_neg hsid, value_bind, value_be16, Option.bind_some]
  change (keyShareReading (_ + 2 + rd16 d _) (16383 + 1) _).value d = _
  have hext := rd16_lt d (39 + (d 38).toNat + 3)
  rw [value_keyShareReading (by omega), ← findKeyShare_fuel d _ 16383 _
    (39 + (d 38).toNat + 3 + 2 + rd16 d (39 + (d 38).toNat + 3)) (by omega), Nat.add_comm 16383,
    findKeyShare_fuel d _ _ _ 16383 (by omega)]

/-- The parser stays in the record exactly for the records whose extensions do. -/
theorem stays_serverHelloReading (d : Mem) (len : Nat) :
    Stays (· < len) (serverHelloReading len) d ↔ HelloInside d len := by
  rw [serverHelloReading, HelloInside]
  by_cases hlen : len < 4
  · rw [if_pos hlen]
    exact iff_of_true (stays_pure _) fun _ hin => by omega
  rw [if_neg hlen, stays_byte_bind]
  by_cases htype : d 0 = 2
  · rw [if_neg (not_not.mpr htype)]
    by_cases hshort : len ≤ 38
    · rw [if_pos hshort]
      exact iff_of_true ⟨by omega, stays_pure _⟩ fun _ hin => by omega
    rw [if_neg hshort, stays_byte_bind]
    by_cases hsid : len < 39 + (d 38).toNat + 3 + 2
    · rw [if_pos hsid]
      exact iff_of_true ⟨by omega, by omega, stays_pure _⟩ fun _ hin => by omega
    rw [if_neg hsid, stays_be16_bind, stays_keyShareReading]
    constructor
    · rintro ⟨-, -, -, h⟩ - -
      exact h
    · intro h
      exact ⟨by omega, by omega, by omega, h htype (Nat.le_of_not_lt hsid)⟩
  · rw [if_pos htype]
    exact iff_of_true ⟨by omega, stays_pure _⟩ fun h => absurd h htype

end Hello

/-! ## Certificates -/

section Cert
variable {X : Type} (K : Crypto X) {d : Mem} {dlen fuel hp : Nat}

/-- The certificate part of the scan. The parser is handed the bytes of a certificate. -/
def certReading (hp : Nat) (hsType : UInt8) (hsLen : Nat) : Reading Nat (Option (Option X)) :=
  if hsType = 11 ∧ 4 < hsLen then
    let cpEnd := hp + 4 + hsLen
    let cp := if hp + 4 < cpEnd then hp + 5 else hp + 4
    if cp + 3 ≤ cpEnd then
      let cp := cp + 3
      if cp + 3 ≤ cpEnd then do
        let cderLen ← be24 cp
        let cp := cp + 3
        if cp + cderLen ≤ cpEnd then
          lend (List.range' cp cderLen) fun d => some (K.x509Parse (fun i => d (cp + i)) cderLen)
        else pure none
      else pure none
    else pure none
  else pure none

/-- `tls13_connect`, the scan of the messages of a record: whether there is a Finished, and
the stored certificate. -/
def scanReading (dlen : Nat) : Nat → Nat → Bool × Option X → Reading Nat (Bool × Option X)
  | 0, _, _ => stuck
  | fuel + 1, hp, st =>
      if hp + 4 ≤ dlen then do
        let hsType ← byte hp
        let hsLen ← be24 (hp + 1)
        let cert ← certReading K hp hsType hsLen
        scanReading dlen fuel (hp + 4 + hsLen) (st.1 || decide (hsType = 20), cert.getD st.2)
      else pure st

/-- A message that is no Certificate, or one too short for the header of a certificate, or
one whose first certificate has its header in the record and, if it ends in the message,
its bytes. -/
def CertInside (d : Mem) (dlen q : Nat) : Prop :=
  d q = 11 → 7 ≤ rd24 d (q + 1) → q + 11 ≤ dlen ∧
    (7 + rd24 d (q + 8) ≤ rd24 d (q + 1) → q + 11 + rd24 d (q + 8) ≤ dlen)

/-- The certificate part ends with what the handshake stores. -/
theorem value_certReading (d : Mem) (hp : Nat) :
    (certReading K hp (d hp) (rd24 d (hp + 1))).value d = some (certAt K d hp) := by
  unfold certReading certAt
  dsimp only
  by_cases hcert : d hp = 11 ∧ 4 < rd24 d (hp + 1)
  · have hcp : hp + 4 < hp + 4 + rd24 d (hp + 1) := by omega
    have hlist : hp + 5 + 3 ≤ hp + 4 + rd24 d (hp + 1) := by omega
    rw [if_pos hcert, if_pos hcert, if_pos hcp, if_pos hlist, if_pos hlist]
    by_cases hentry : hp + 5 + 3 + 3 ≤ hp + 4 + rd24 d (hp + 1)
    · rw [if_pos hentry, if_pos hentry, value_bind, value_be24, Option.bind_some, value_ite]
      change (if hp + 5 + 3 + 3 + rd24 d (hp + 5 + 3) ≤ _ then some _ else some none) = _
      split <;> rfl
    · rw [if_neg hentry, if_neg hentry]
      rfl
  · rw [if_neg hcert, if_neg hcert]
    rfl

theorem stays_certReading :
    Stays (· < dlen) (certReading K hp (d hp) (rd24 d (hp + 1))) d ↔ CertInside d dlen hp := by
  unfold certReading CertInside
  dsimp only
  by_cases hcert : d hp = 11 ∧ 4 < rd24 d (hp + 1)
  · rw [if_pos hcert, if_pos (show hp + 4 < hp + 4 + rd24 d (hp + 1) by omega),
      if_pos (show hp + 5 + 3 ≤ hp + 4 + rd24 d (hp + 1) by omega)]
    by_cases hentry : hp + 5 + 3 + 3 ≤ hp + 4 + rd24 d (hp + 1)
    · rw [if_pos hentry, stays_be24_bind, stays_ite]
      simp only [stays_pure, stays_lend, range'_below, implies_true, and_true]
      change _ ∧ (hp + 5 + 3 + 3 + rd24 d (hp + 8) ≤ hp + 4 + rd24 d (hp + 1) →
        rd24 d (hp + 8) = 0 ∨ hp + 5 + 3 + 3 + rd24 d (hp + 8) ≤ dlen) ↔ _
      have h7 : 7 ≤ rd24 d (hp + 1) := by omega
      simp only [hcert.1, h7, forall_const]
      omega
    · rw [if_neg hentry]
      exact iff_of_true (stays_pure _) fun _ h7 => by omega
  · rw [if_neg hcert]
    exact iff_of_true (stays_pure _) fun h11 h7 => absurd ⟨h11, by omega⟩ hcert

/-- The scan stays in the record if the certificates do. -/
theorem stays_scanReading {st : Bool × Option X} :
    Stays (· < dlen) (scanReading K dlen fuel hp st) d ↔
      ∀ q ∈ hsOffsets d dlen fuel hp, CertInside d dlen q := by
  induction fuel generalizing hp st with
  | zero => simp [scanReading, hsOffsets]
  | succ fuel ih =>
      rw [scanReading, hsOffsets]
      by_cases hhead : hp + 4 ≤ dlen
      · rw [if_pos hhead, if_pos hhead, stays_byte_bind, stays_be24_bind, List.forall_mem_cons]
        change _ ∧ _ ∧ Stays _ (certReading K hp (d hp) (rd24 d (hp + 1)) >>= _) d ↔ _
        rw [stays_bind_value (value_certReading K d hp), stays_certReading, ih]
        constructor
        · rintro ⟨-, -, hcert, hrest⟩
          exact ⟨hcert, hrest⟩
        · rintro ⟨hcert, hrest⟩
          exact ⟨by omega, by omega, hcert, hrest⟩
      · simp [hhead]

/-- The scan ends, with the Finished and the certificate that the handshake finds. -/
theorem value_scanReading {st : Bool × Option X} (h : dlen < hp + 4 * fuel + 4) :
    (scanReading K dlen (fuel + 1) hp st).value d
      = some ((hsOffsets d dlen fuel hp).foldl (fun st hp =>
          (st.1 || decide (d hp = 20), (certAt K d hp).getD st.2)) st) := by
  induction fuel generalizing hp st with
  | zero =>
      rw [scanReading, if_neg (by omega)]
      rfl
  | succ fuel ih =>
      rw [scanReading, hsOffsets]
      by_cases hhead : hp + 4 ≤ dlen
      · rw [if_pos hhead, if_pos hhead, value_bind, value_byte, Option.bind_some, value_bind,
          value_be24, Option.bind_some]
        change (certReading K hp (d hp) (rd24 d (hp + 1)) >>= _).value d = _
        rw [value_bind, value_certReading, Option.bind_some]
        exact ih (by omega)
      · rw [if_neg hhead, if_neg hhead]
        rfl

/-- The scan takes a Finished and a certificate from the same messages as the handshake. -/
theorem scanRecord_eq_reading (st : FlightState X) (r : HsRecord) :
    (scanReading K r.dlen (r.dlen + 1) 0 (st.gotFin, st.lastCert)).value r.mem
      = some ((scanRecord K st r).gotFin, (scanRecord K st r).lastCert) := by
  rw [value_scanReading K (by omega), scanRecord]
  congr 1
  exact List.foldl_hom (fun st : FlightState X => (st.gotFin, st.lastCert)) fun _ _ => rfl

/-- Both parsers end and read inside the record only: `parse_server_hello` in a record of the
first length, the scan in content of the second. -/
def HandshakeInside (hello : Mem) (len : Nat) (d : Mem) (dlen : Nat) : Prop :=
  Ends (· < len) hello (serverHelloReading len) (fun _ => True) ∧
    ∀ st, Ends (· < dlen) d (scanReading K dlen (dlen + 1) 0 st) fun _ => True

end Cert

/-- The scan ends for every content, and the handshake parsers stay inside the record exactly
if the extensions of the ServerHello and the certificates of the record that they look at
do. -/
theorem handshakeInside_iff {X : Type} (K : Crypto X) (hello : Mem) (len : Nat) (d : Mem)
    (dlen : Nat) :
    (∀ st, ((scanReading K dlen (dlen + 1) 0 st).value d).isSome) ∧
      (HandshakeInside K hello len d dlen ↔
        HelloInside hello len ∧ ∀ q ∈ hsOffsets d dlen dlen 0, CertInside d dlen q) := by
  have hends : ∀ st, ∃ st', (scanReading K dlen (dlen + 1) 0 st).value d = some st' :=
    fun st => ⟨_, value_scanReading K (by omega)⟩
  have hoffsets : hsOffsets d dlen (dlen + 1) 0 = hsOffsets d dlen dlen 0 :=
    hsOffsets_fuel d dlen dlen 0 1 (by omega)
  rw [← hoffsets]
  constructor
  · intro st
    obtain ⟨st', hst'⟩ := hends st
    rw [hst']
    rfl
  constructor
  · rintro ⟨hhello, hscan⟩
    exact ⟨(stays_serverHelloReading hello len).mp hhello.stays,
      (stays_scanReading K).mp (hscan (false, none)).stays⟩
  · rintro ⟨hhello, hcert⟩
    refine ⟨⟨(stays_serverHelloReading hello len).mpr hhello, ?_⟩, ?_⟩
    · exact ⟨_, value_serverHelloReading hello len, trivial⟩
    · intro st
      obtain ⟨st', hst'⟩ := hends st
      exact ⟨(stays_scanReading K).mpr hcert, st', hst', trivial⟩

/-- A record of 44 bytes: a ServerHello whose extensions are said to have four bytes and have
none. -/
def cutHello : Mem := fun i => if i = 0 then 2 else if i = 43 then 4 else 0

/-- The header of its first extension is read behind the record. -/
theorem not_every_handshake_inside :
    ¬ ∀ (X : Type) (K : Crypto X) (hello : Mem) (len : Nat) (d : Mem) (dlen : Nat),
      HandshakeInside K hello len d dlen := by
  intro h
  have hread := (h Bytes sampleCrypto cutHello 44 (fun _ => 0) 0).1.stays
  have hinside := (stays_serverHelloReading cutHello 44).mp hread rfl (by decide)
  exact absurd (hinside 44 (by decide)).header (by decide)

end OriaOS.Tls
