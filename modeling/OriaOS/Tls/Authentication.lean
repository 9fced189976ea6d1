import OriaOS.Tls.Handshake

/-!
# What a completed handshake authenticates

The server's flight is read off the records that arrive, without the client's
bookkeeping: the handshake records that open after the ServerHello, up to the
first one with a Finished message. `tls13_connect` returns zero exactly when
such a flight arrives. It compares no Finished with anything, and it replaces
the stored certificate only when the flight has one.
-/

namespace OriaOS.Tls

variable {X : Type} (K : Crypto X)

/-- A message of type Finished is in the record. -/
def HsRecord.hasFinished (r : HsRecord) : Prop := ∃ hp ∈ r.offsets, r.mem hp = 20

instance (r : HsRecord) : Decidable r.hasFinished := inferInstanceAs (Decidable (∃ _ ∈ _, _))

/-- The handshake records among at most `n` records, up to a Finished; nothing
if none comes in time, if reading fails, or if an alert comes first. -/
def flightFrom (A : Aead) (key : Key) (iv : Nonce) :
    Nat → UInt64 → Mem → Wire → Option (List HsRecord)
  | 0, _, _, _ => none
  | _ + 1, _, _, [] => none
  | _ + 1, _, _, none :: _ => none
  | n + 1, seq, mem, some r :: w =>
      let mem := overlay r.data mem
      if r.type = alertType then none
      else if r.type ≠ appDataType then flightFrom A key iv n seq mem w
      else
        let d := decryptRecord A key iv seq r.data
        let pt := if r.data.length < 16 then [] else (openRecord A key iv seq r.data).getD []
        let mem := overlay pt mem
        match d.1 with
        | none => flightFrom A key iv n d.2 mem w
        | some (ict, content) =>
            if ict = handshakeType then
              let hs : HsRecord := ⟨mem, content.length⟩
              if hs.hasFinished then some [hs]
              else (flightFrom A key iv n d.2 mem w).map (hs :: ·)
            else flightFrom A key iv n d.2 mem w

/-- A server's flight: the hello messages, the traffic secret they lead to and
the handshake records that follow. -/
structure Flight where
  hellos : List Bytes
  sTraffic : Bytes
  records : List HsRecord

/-- The flight that arrives at a call of `tls13_connect`, if a complete one does. -/
def serverFlight (g : TlsGlobals X) (a : ConnectArgs) : Option Flight :=
  if ∀ i, (g.conns i).used = true then none
  else
    match readServerHello 0 g.recBuf a.wire with
    | (none, _) => none
    | (some (r, w), mem) =>
        if r.type ≠ handshakeType then none
        else
          match parseServerHello mem r.data.length with
          | none => none
          | some sPub =>
              let hellos := [clientHello a.host a.random (K.x25519Public a.priv), r.data]
              let traffic :=
                (hsSecrets K (K.x25519Shared a.priv sPub) (K.sha256 hellos.flatten)).sTraffic
              (flightFrom K.aead (trafficKey K traffic) (trafficIv K traffic) 30 0 mem w).map
                fun records => ⟨hellos, traffic, records⟩

/-- A whole Finished message is in the flight, and its content is the HMAC of
the transcript before it under the server's finished key. -/
def RightFinished (f : Flight) : Prop :=
  ∃ before r after, f.records = before ++ r :: after ∧
    ∃ hp ∈ r.offsets, r.mem hp = 20 ∧ hp + 4 + rd24 r.mem (hp + 1) ≤ r.dlen ∧
      slice r.mem (hp + 4) (rd24 r.mem (hp + 1)) =
        verifyData K f.sTraffic
          (f.hellos ++ before.map HsRecord.payload ++ [r.payload.take hp])

/-- The certificate was parsed from a message of the flight. -/
def Received (f : Flight) (x : X) : Prop :=
  ∃ r ∈ f.records, ∃ hp ∈ r.offsets, certAt K r.mem hp = some (some x)

/-- Some Certificate message of the flight reaches the parser. -/
def HasCertificate (f : Flight) : Prop :=
  ∃ r ∈ f.records, ∃ hp ∈ r.offsets, certAt K r.mem hp ≠ none

/-- If the call returns zero, the flight held the right Finished, and the
certificate interface then answers from a certificate of the same flight. -/
def Authenticated (g : TlsGlobals X) (a : ConnectArgs) : Prop :=
  (tls13Connect K g a).1 = 0 →
    ∃ f, serverFlight K g a = some f ∧ RightFinished K f ∧
      (∀ x, tls13GetLastCert (tls13Connect K g a).2 = some x → Received K f x) ∧
      ∀ host, tls13CheckHostname K (tls13Connect K g a).2 host = -1 ∨
        ∃ x, Received K f x ∧
          tls13CheckHostname K (tls13Connect K g a).2 host = K.x509CheckHostname x host

/-- The condition on what arrives and on the store before the call: a flight
that completes has the right Finished, and it has a certificate or none is
stored from before. -/
def TrustworthyFlight (g : TlsGlobals X) (a : ConnectArgs) : Prop :=
  ∀ f, serverFlight K g a = some f →
    RightFinished K f ∧ (HasCertificate K f ∨ g.lastCert = none)

/-- The stored certificate after one record. -/
def certAfterRecord (cert : Option X) (r : HsRecord) : Option X :=
  r.offsets.foldl (fun cert hp => (certAt K r.mem hp).getD cert) cert

/-- The stored certificate after the records of a flight. -/
def certAfter (cert : Option X) (records : List HsRecord) : Option X :=
  records.foldl (certAfterRecord K) cert

section Store
variable {K}

private theorem foldl_cert {α : Type} (f : α → Option (Option X)) (l : List α) (cert : Option X) :
    (∃ a ∈ l, f a ≠ none ∧ l.foldl (fun cert a => (f a).getD cert) cert = (f a).getD cert) ∨
      ((∀ a ∈ l, f a = none) ∧ l.foldl (fun cert a => (f a).getD cert) cert = cert) := by
  induction l generalizing cert with
  | nil => exact Or.inr ⟨fun _ ha => (nomatch ha), rfl⟩
  | cons a l ih =>
      simp only [List.foldl_cons]
      rcases ih ((f a).getD cert) with ⟨b, hb, hne, heq⟩ | ⟨hnone, heq⟩
      · refine Or.inl ⟨b, List.mem_cons_of_mem a hb, hne, ?_⟩
        rw [heq]
        obtain ⟨res, hres⟩ := Option.ne_none_iff_exists'.mp hne
        rw [hres]
        rfl
      · by_cases ha : f a = none
        · refine Or.inr ⟨?_, ?_⟩
          · intro b hb
            rcases List.mem_cons.mp hb with rfl | hb
            · exact ha
            · exact hnone b hb
          · rw [heq, ha]
            rfl
        · exact Or.inl ⟨a, List.mem_cons_self, ha, heq⟩

/-- A stored certificate comes from the record or was there before, and then
no message of the record reached the parser. -/
theorem certAfterRecord_cases (cert : Option X) (r : HsRecord) :
    (∃ hp ∈ r.offsets, certAt K r.mem hp = some (certAfterRecord K cert r)) ∨
      ((∀ hp ∈ r.offsets, certAt K r.mem hp = none) ∧ certAfterRecord K cert r = cert) := by
  rcases foldl_cert (certAt K r.mem) r.offsets cert with ⟨hp, hmem, hne, heq⟩ | hnone
  · obtain ⟨res, hres⟩ := Option.ne_none_iff_exists'.mp hne
    refine Or.inl ⟨hp, hmem, ?_⟩
    unfold certAfterRecord
    rw [heq, hres]
    rfl
  · exact Or.inr hnone

/-- The same for the records of a flight. -/
theorem certAfter_cases (cert : Option X) (records : List HsRecord) :
    (∃ r ∈ records, ∃ hp ∈ r.offsets, certAt K r.mem hp = some (certAfter K cert records)) ∨
      ((∀ r ∈ records, ∀ hp ∈ r.offsets, certAt K r.mem hp = none) ∧
        certAfter K cert records = cert) := by
  induction records generalizing cert with
  | nil => exact Or.inr ⟨fun _ hr => (nomatch hr), rfl⟩
  | cons r records ih =>
      rcases ih (certAfterRecord K cert r) with ⟨r', hr', hp, hmem, heq⟩ | ⟨hnone, heq⟩
      · exact Or.inl ⟨r', List.mem_cons_of_mem r hr', hp, hmem, heq⟩
      · have hstep : certAfter K cert (r :: records) = certAfterRecord K cert r := heq
        rcases certAfterRecord_cases (K := K) cert r with ⟨hp, hmem, hr⟩ | ⟨hnone', hr⟩
        · refine Or.inl ⟨r, List.mem_cons_self, hp, hmem, ?_⟩
          rw [hstep]
          exact hr
        · refine Or.inr ⟨?_, hstep.trans hr⟩
          intro r' hr'
          rcases List.mem_cons.mp hr' with rfl | hr'
          · exact hnone'
          · exact hnone r' hr'

end Store

section Loop
variable {K}

/-- The scan of a record finds its Finished and stores its certificates. -/
theorem scanRecord_spec (st : FlightState X) (r : HsRecord) :
    scanRecord K st r =
      { st with
        gotFin := st.gotFin || decide r.hasFinished
        lastCert := certAfterRecord K st.lastCert r } := by
  have hfold : ∀ (l : List Nat) (st : FlightState X),
      l.foldl (fun st hp =>
        { st with
          gotFin := st.gotFin || decide (r.mem hp = 20)
          lastCert := (certAt K r.mem hp).getD st.lastCert }) st =
      { st with
        gotFin := st.gotFin || decide (∃ hp ∈ l, r.mem hp = 20)
        lastCert := l.foldl (fun cert hp => (certAt K r.mem hp).getD cert) st.lastCert } := by
    intro l
    induction l with
    | nil => simp
    | cons hp l ih =>
        intro st
        rw [List.foldl_cons, ih]
        simp [Bool.or_assoc]
  exact hfold r.offsets st

/-- The loop ended well exactly if there was a flight, and then with the
flight's certificates stored. -/
def LoopMeets (K : Crypto X) (cert : Option X) (flight : Option (List HsRecord))
    (res : Bool × FlightState X) : Prop :=
  match flight with
  | none => res.1 = false ∨ res.2.gotFin = false
  | some records => res.1 = true ∧ res.2.gotFin = true ∧ res.2.lastCert = certAfter K cert records

theorem flightLoop_done (key : Key) (iv : Nonce) (n : Nat) (st : FlightState X) (w : Wire)
    (hfin : st.gotFin = true) : flightLoop K key iv n st w = (true, st) := by
  cases n with
  | zero => rfl
  | succ n => simp only [flightLoop, if_pos hfin]

theorem LoopMeets.cons {cert : Option X} {flight : Option (List HsRecord)}
    {res : Bool × FlightState X} {r : HsRecord}
    (h : LoopMeets K (certAfterRecord K cert r) flight res) :
    LoopMeets K cert (flight.map (r :: ·)) res := by
  cases flight with
  | none => exact h
  | some records => exact h

theorem flightLoop_spec (key : Key) (iv : Nonce) (n : Nat) (st : FlightState X) (w : Wire)
    (hfin : ¬ st.gotFin = true) :
    LoopMeets K st.lastCert (flightFrom K.aead key iv n st.seq st.mem w)
      (flightLoop K key iv n st w) := by
  induction n generalizing st w with
  | zero => exact Or.inr (Bool.eq_false_iff.mpr hfin)
  | succ n ih =>
      match w with
      | [] =>
          simp only [flightFrom, flightLoop, if_neg hfin]
          exact Or.inl rfl
      | none :: w =>
          simp only [flightFrom, flightLoop, if_neg hfin]
          exact Or.inl rfl
      | some r :: w =>
          by_cases halert : r.type = alertType
          · simp only [flightFrom, flightLoop, if_neg hfin, if_pos halert]
            exact Or.inl rfl
          by_cases hplain : r.type ≠ appDataType
          · simp only [flightFrom, flightLoop, if_neg hfin, if_neg halert, if_pos hplain]
            exact ih { st with mem := overlay r.data st.mem } w hfin
          simp only [flightFrom, flightLoop, if_neg hfin, if_neg halert, if_neg hplain]
          generalize decryptRecord K.aead key iv st.seq r.data = d
          generalize (if r.data.length < 16 then [] else
            (openRecord K.aead key iv st.seq r.data).getD []) = pt
          obtain ⟨_ | ⟨ict, content⟩, seq⟩ := d
          · exact ih { st with seq := seq, mem := overlay pt (overlay r.data st.mem) } w hfin
          · simp only
            by_cases hhs : ict = handshakeType
            · simp only [if_pos hhs, scanRecord_spec]
              by_cases hhas : HsRecord.hasFinished ⟨overlay pt (overlay r.data st.mem), content.length⟩
              · rw [if_pos hhas, flightLoop_done]
                · exact ⟨rfl, by simp [hhas], rfl⟩
                · simp [hhas]
              · rw [if_neg hhas]
                apply LoopMeets.cons
                refine ih ⟨seq, _, _, _, _⟩ w ?_
                simpa [hhas] using hfin
            · simp only [if_neg hhs]
              exact ih { st with seq := seq, mem := overlay pt (overlay r.data st.mem) } w hfin

theorem endFlight_spec {cert : Option X} {flight : Option (List HsRecord)}
    {res : Bool × FlightState X} (g : TlsGlobals X) (i : Fin 4) (c : TlsConn)
    (h : LoopMeets K cert flight res) :
    ((endFlight K g i c res).1 = 0 ↔ ∃ records, flight = some records) ∧
      ∀ records, flight = some records →
        (endFlight K g i c res).2.lastCert = certAfter K cert records := by
  cases flight with
  | none =>
      have hbad : res.1 = false ∨ res.2.gotFin = false := h
      simp [endFlight, failConnect, hbad]
  | some records =>
      obtain ⟨hok, hfin, hcert⟩ := h
      simp [endFlight, hok, hfin, hcert]

/-- From the shared secret on, zero is returned exactly when a flight arrives,
and then the store is what the flight's certificates make of it. -/
theorem connectFlight_spec (g : TlsGlobals X) (i : Fin 4) (c : TlsConn) (w : Wire) :
    let traffic := (hsSecrets K c.ecdhe (K.sha256 c.transcript.flatten)).sTraffic
    let flight := flightFrom K.aead (trafficKey K traffic) (trafficIv K traffic) 30 0 g.recBuf w
    ((connectFlight K g i c w).1 = 0 ↔ ∃ records, flight = some records) ∧
      ∀ records, flight = some records →
        (connectFlight K g i c w).2.lastCert = certAfter K g.lastCert records := by
  have hloop := flightLoop_spec (K := K)
    (deriveHsKeys K c (K.sha256 c.transcript.flatten)).hsSKey
    (deriveHsKeys K c (K.sha256 c.transcript.flatten)).hsSIv 30
    ⟨0, c.transcript, false, g.lastCert, g.recBuf⟩ w Bool.false_ne_true
  exact endFlight_spec _ i _ hloop

/-- `tls13_connect` returns zero exactly when a flight arrives, and then the
store is what the flight's certificates make of it. -/
theorem tls13Connect_spec (g : TlsGlobals X) (a : ConnectArgs) :
    ((tls13Connect K g a).1 = 0 ↔ ∃ f, serverFlight K g a = some f) ∧
      ∀ f, serverFlight K g a = some f →
        (tls13Connect K g a).2.lastCert = certAfter K g.lastCert f.records := by
  have hslot : (∀ i, (g.conns i).used = true) ↔
      ((List.finRange 4).find? fun i => (g.conns i).used = false) = none := by
    simp [List.find?_eq_none]
  unfold tls13Connect serverFlight
  cases hfind : (List.finRange 4).find? fun i => (g.conns i).used = false with
  | none =>
      rw [hfind] at hslot
      simp [hslot.mpr rfl]
  | some i =>
      rw [hfind] at hslot
      have hfree : ¬ ∀ i, (g.conns i).used = true := by
        intro hall
        exact absurd (hslot.mp hall) (Option.some_ne_none i)
      simp only [if_neg hfree]
      rcases hread : readServerHello 0 g.recBuf a.wire with ⟨_ | ⟨r, w⟩, mem⟩
      · simp [failConnect]
      · simp only
        by_cases htype : r.type ≠ handshakeType
        · simp [htype, failConnect]
        · simp only [if_neg htype]
          cases hparse : parseServerHello mem r.data.length with
          | none => simp [failConnect]
          | some sPub =>
              have hspec := connectFlight_spec (K := K) { g with recBuf := mem } i
                { TlsConn.zero with
                  used := true
                  tcpId := a.tcpId
                  cPriv := a.priv
                  cPub := K.x25519Public a.priv
                  transcript := [clientHello a.host a.random (K.x25519Public a.priv), r.data]
                  sPub := sPub
                  ecdhe := K.x25519Shared a.priv sPub } w
              simp only at hspec ⊢
              refine ⟨?_, ?_⟩
              · rw [hspec.1]
                simp
              · intro f hf
                obtain ⟨records, hrecords, rfl⟩ := Option.map_eq_some_iff.mp hf
                exact hspec.2 records hrecords

end Loop

/-- A call of `tls13_connect` keeps the claim of an authenticated handshake
exactly if the flight that arrives, when one completes, has the right Finished
on its own account, and has a certificate or finds the store empty. -/
theorem authenticated_iff_trustworthy (g : TlsGlobals X) (a : ConnectArgs) :
    Authenticated K g a ↔ TrustworthyFlight K g a := by
  obtain ⟨hzero, hcert⟩ := tls13Connect_spec (K := K) g a
  constructor
  · intro h f hf
    obtain ⟨f', hf', hright, hget, _⟩ := h (hzero.mpr ⟨f, hf⟩)
    rw [hf] at hf'
    cases hf'
    refine ⟨hright, ?_⟩
    by_contra hno
    rw [not_or] at hno
    -- Nothing was parsed, so the old certificate is still there.
    have hsame : (tls13Connect K g a).2.lastCert = g.lastCert := by
      rw [hcert f hf]
      rcases certAfter_cases (K := K) g.lastCert f.records with ⟨r, hr, hp, hmem, heq⟩ | ⟨_, heq⟩
      · exact absurd ⟨r, hr, hp, hmem, by rw [heq]; exact Option.some_ne_none _⟩ hno.1
      · exact heq
    obtain ⟨x, hx⟩ := Option.ne_none_iff_exists'.mp hno.2
    obtain ⟨r, hr, hp, hmem, heq⟩ := hget x (hsame.trans hx)
    exact hno.1 ⟨r, hr, hp, hmem, by rw [heq]; exact Option.some_ne_none _⟩
  · intro h hret
    obtain ⟨f, hf⟩ := hzero.mp hret
    obtain ⟨hright, hstore⟩ := h f hf
    have hreceived : ∀ x, (tls13Connect K g a).2.lastCert = some x → Received K f x := by
      intro x hx
      rw [hcert f hf] at hx
      rcases certAfter_cases (K := K) g.lastCert f.records with
        ⟨r, hr, hp, hmem, heq⟩ | ⟨hnone, heq⟩
      · exact ⟨r, hr, hp, hmem, by rw [heq, hx]⟩
      · rcases hstore with ⟨r, hr, hp, hmem, hne⟩ | hempty
        · exact absurd (hnone r hr hp hmem) hne
        · rw [heq, hempty] at hx
          cases hx
    refine ⟨f, hf, hright, hreceived, ?_⟩
    intro host
    cases hlast : (tls13Connect K g a).2.lastCert with
    | none =>
        left
        simp only [tls13CheckHostname, hlast]
    | some x =>
        right
        refine ⟨x, hreceived x hlast, ?_⟩
        simp only [tls13CheckHostname, hlast]

/-- Whatever the AEAD opens, it can have sealed: every plaintext has a
ciphertext and a tag of sixteen bytes. -/
def Seals (A : Aead) : Prop :=
  ∀ key nonce aad pt, ∃ ct tag, tag.length = 16 ∧ A.openWith key nonce aad ct tag = some pt

/-- A ServerHello with an all-zero X25519 share. -/
def bareServerHello : TlsRecord where
  type := handshakeType
  data := [2, 0, 0, 0] ++ List.replicate 34 0 ++ [0, 0, 0, 0] ++ [0, 40] ++ [0, 0x33, 0, 36] ++
    [0, 0x1d, 0, 32] ++ List.replicate 32 0
  length_le := by decide

/-- The shared state before the first connection. -/
def noConnections : TlsGlobals X where
  conns := fun _ => .zero
  lastCert := none
  recBuf := fun _ => 0
  savedHsSecret := List.replicate 32 0

/-- The key share of the bare ServerHello. -/
theorem parse_bareServerHello :
    parseServerHello (overlay bareServerHello.data fun _ => 0) bareServerHello.data.length =
      some (List.replicate 32 0) := by
  decide

/-- The only message of a record that holds an empty Finished. -/
theorem offsets_emptyFinished (mem : Mem) :
    HsRecord.offsets ⟨overlay [20, 0, 0, 0, 0x16] mem, 4⟩ = [0] := by
  simp [HsRecord.offsets, hsOffsets, rd24, overlay]

/-- A flight that consists of one empty Finished. -/
theorem flightFrom_emptyFinished {A : Aead} {key : Key} {iv : Nonce} (mem : Mem) {ct tag : Bytes}
    (htag : tag.length = 16) (hlen : (ct ++ tag).length ≤ recBufSize)
    (hopen : A.openWith key (makeNonce iv 0) (recordAad 21) ct tag = some [20, 0, 0, 0, 0x16]) :
    ∃ mem', flightFrom A key iv 30 0 mem [some ⟨appDataType, ct ++ tag, hlen⟩] =
      some [⟨overlay [20, 0, 0, 0, 0x16] mem', 4⟩] := by
  have hct : ct.length = 5 := (A.length_eq hopen).symm
  have hdata : (ct ++ tag).length = 21 := by rw [List.length_append, hct, htag]
  have hshort : ¬ (ct ++ tag).length < 16 := by omega
  have hrec : openRecord A key iv 0 (ct ++ tag) = some [20, 0, 0, 0, 0x16] := by
    unfold openRecord
    rw [hdata]
    simp only [show 21 - 16 = ct.length by omega, List.take_left, List.drop_left]
    exact hopen
  have hsplit : splitInner [20, 0, 0, 0, 0x16] = some (handshakeType, [20, 0, 0, 0]) := rfl
  refine ⟨overlay (ct ++ tag) mem, ?_⟩
  have hfin : HsRecord.hasFinished
      ⟨overlay [20, 0, 0, 0, 0x16] (overlay (ct ++ tag) mem), 4⟩ :=
    ⟨0, by rw [offsets_emptyFinished]; exact List.mem_cons_self, rfl⟩
  have halert : ¬ appDataType = alertType := by decide
  simp only [flightFrom, if_neg halert, decryptRecord, if_neg hshort, hrec, Option.bind_some,
    hsplit, ne_eq, not_true_eq_false, if_false, if_true, Option.getD_some, List.length_cons,
    List.length_nil, Nat.zero_add, Nat.reduceAdd, if_pos hfin]

/-- With any primitives whose AEAD can seal, a server that sends an empty
Finished and nothing else is accepted. -/
theorem empty_finished_is_accepted :
    ¬ ∃ (X : Type) (K : Crypto X), Seals K.aead ∧ ∀ g a, Authenticated K g a := by
  rintro ⟨X, K, hseals, hall⟩
  -- The secrets of a connection whose server sent the bare ServerHello.
  obtain ⟨traffic, htraffic⟩ : ∃ t, t = (hsSecrets K (K.x25519Shared [] (List.replicate 32 0))
    (K.sha256 [clientHello none [] (K.x25519Public []), bareServerHello.data].flatten)).sTraffic :=
    ⟨_, rfl⟩
  obtain ⟨ct, tag, htag, hopen⟩ := hseals (trafficKey K traffic) (makeNonce (trafficIv K traffic) 0)
    (recordAad 21) [20, 0, 0, 0, 0x16]
  have hct : ct.length = 5 := (K.aead.length_eq hopen).symm
  have hlen : (ct ++ tag).length ≤ recBufSize := by
    rw [List.length_append, hct, htag]
    decide
  obtain ⟨mem, hflight⟩ := flightFrom_emptyFinished
    (overlay bareServerHello.data fun _ => 0) htag hlen hopen
  have hserver : serverFlight K noConnections
      ⟨0, none, [], [], [some bareServerHello, some ⟨appDataType, ct ++ tag, hlen⟩]⟩ =
      some ⟨[clientHello none [] (K.x25519Public []), bareServerHello.data], traffic,
        [⟨overlay [20, 0, 0, 0, 0x16] mem, 4⟩]⟩ := by
    have hfree : ¬ ∀ i : Fin 4, ((noConnections (X := X)).conns i).used = true :=
      fun h => Bool.false_ne_true (h 0)
    have hread : readServerHello 0 (noConnections (X := X)).recBuf
        [some bareServerHello, some ⟨appDataType, ct ++ tag, hlen⟩] =
        (some (bareServerHello, [some ⟨appDataType, ct ++ tag, hlen⟩]),
          overlay bareServerHello.data fun _ => 0) := rfl
    have htype : ¬ bareServerHello.type ≠ handshakeType := not_not.mpr rfl
    simp only [serverFlight, if_neg hfree, hread, if_neg htype, parse_bareServerHello, ← htraffic,
      hflight, Option.map_some]
  have hzero := ((tls13Connect_spec (K := K) _ _).1).mpr ⟨_, hserver⟩
  obtain ⟨f, hf, ⟨before, r, after, hrecords, hp, hmem, _, _, hverify⟩, _⟩ := hall _ _ hzero
  rw [hserver] at hf
  cases hf
  -- The flight has one record with one message, and that one is empty.
  have hr : r = ⟨overlay [20, 0, 0, 0, 0x16] mem, 4⟩ := by
    have hin : r ∈ before ++ r :: after := by simp
    rw [← hrecords] at hin
    exact List.mem_singleton.mp hin
  subst hr
  rw [offsets_emptyFinished, List.mem_singleton] at hmem
  subst hmem
  have hlength := congrArg List.length hverify
  rw [verifyData, Crypto.hmacSha256, K.sha256_length] at hlength
  exact absurd hlength (by simp [slice, rd24, overlay])

end OriaOS.Tls
