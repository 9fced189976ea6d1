import OriaOS.Tls.Messages
import OriaOS.Tls.Sealing

/-!
# The framing of the server's flight

A server may put its encrypted handshake messages into records as it likes, pad the
records and send ChangeCipherSpec records in between. The client scans each record of
at least four bytes from its first byte, so it finds the messages as long as no such
record begins inside a message.
-/

namespace OriaOS.Tls

/-! ## Records -/

/-- What the server sends: the record of the ServerHello and its encrypted messages. -/
structure ServerMessages where
  hello : TlsRecord
  hello_type : hello.type = handshakeType
  hello_ne : hello.data ≠ []
  encryptedExtensions : HsMsg
  certificate : HsMsg
  certificateVerify : HsMsg
  finished : HsMsg
  types : encryptedExtensions.type = 8 ∧ certificate.type = 11 ∧ certificateVerify.type = 15 ∧
    finished.type = 20

/-- The messages in front of the Finished. -/
def ServerMessages.front (m : ServerMessages) : List HsMsg :=
  [m.encryptedExtensions, m.certificate, m.certificateVerify]

/-- The encrypted messages. -/
def ServerMessages.flight (m : ServerMessages) : List HsMsg := m.front ++ [m.finished]

/-- A protected record with the ChangeCipherSpec records in front of it: the part of
the stream it holds, its padding and its body. -/
structure Piece where
  ccs : Nat
  chunk : Bytes
  pad : Nat
  body : Bytes

/-- A ChangeCipherSpec record. -/
def ccsRecord : TlsRecord where
  type := changeCipherType
  data := [1]
  length_le := by rw [List.length_singleton]; exact Nat.one_le_two_pow (n := 14)

/-- What `read_record` makes of a protected record. -/
def protectedRecord (body : Bytes) : Option TlsRecord :=
  if h : body.length ≤ recBufSize then some ⟨appDataType, body, h⟩ else none

/-- The records of a piece. -/
def Piece.wire (p : Piece) : Wire :=
  List.replicate p.ccs (some ccsRecord) ++ [protectedRecord p.body]

/-- A way to send the messages: the ChangeCipherSpec records in front of the
ServerHello, and the protected records. -/
structure Framing where
  before : Nat
  pieces : List Piece

/-- What arrives. -/
def Framing.wire (f : Framing) (hello : TlsRecord) : Wire :=
  List.replicate f.before (some ccsRecord) ++ some hello :: f.pieces.flatMap Piece.wire

/-- The rules for a framing of a stream under the server's key: the records hold the
stream, none is empty or longer than 2 ^ 14 bytes, and each is sealed under its
number. -/
structure Framing.Of (f : Framing) (A : Aead) (key : Key) (iv : Nonce) (stream : Bytes) : Prop where
  whole : f.pieces.flatMap Piece.chunk = stream
  chunk_ne : ∀ p ∈ f.pieces, p.chunk ≠ []
  small : ∀ p ∈ f.pieces, p.chunk.length + p.pad ≤ 16384
  opens : ∀ i p, f.pieces[i]? = some p → openRecord A key iv (UInt64.ofNat i) p.body =
    some (p.chunk ++ handshakeType :: List.replicate p.pad 0)

section Outcome
variable {X : Type} (K : Crypto X)

/-- The two hello messages. -/
def hellosOf (a : ConnectArgs) (hello : Bytes) : List Bytes :=
  [clientHello a.host a.random (K.x25519Public a.priv), hello]

/-- The server's handshake traffic secret. -/
def serverTraffic (a : ConnectArgs) (hello sPub : Bytes) : Bytes :=
  (hsSecrets K (K.x25519Shared a.priv sPub) (K.sha256 (hellosOf K a hello).flatten)).sTraffic

/-- The key and the IV of the server's handshake records. -/
def serverKeys (a : ConnectArgs) (hello sPub : Bytes) : Key × Nonce :=
  (trafficKey K (serverTraffic K a hello sPub), trafficIv K (serverTraffic K a hello sPub))

/-- The framing is one of the messages, for a server that uses the keys to which its
ServerHello leads. -/
def Framing.Sends (f : Framing) (g : TlsGlobals X) (a : ConnectArgs) (m : ServerMessages) : Prop :=
  ∀ sPub, parseServerHello (overlay m.hello.data g.recBuf) m.hello.data.length = some sPub →
    f.Of K.aead (serverKeys K a m.hello.data sPub).1 (serverKeys K a m.hello.data sPub).2
      (streamOf m.flight)

/-- The Finished is the one of the transcript in front of it. -/
def Genuine (g : TlsGlobals X) (a : ConnectArgs) (m : ServerMessages) : Prop :=
  ∀ sPub, parseServerHello (overlay m.hello.data g.recBuf) m.hello.data.length = some sPub →
    m.finished.body = verifyData K (serverTraffic K a m.hello.data sPub)
      (hellosOf K a m.hello.data ++ [streamOf m.front])

/-- The traffic keys of a connection. -/
def trafficKeys (c : TlsConn) : List (Key × Nonce) :=
  [(c.hsSKey, c.hsSIv), (c.hsCKey, c.hsCIv), (c.apSKey, c.apSIv), (c.apCKey, c.apCIv)]

/-- The same result, traffic keys and parsed certificate. -/
structure SameOutcome (out out' : Int × TlsGlobals X) : Prop where
  ret : out.1 = out'.1
  keys : ∀ i, trafficKeys (out.2.conns i) = trafficKeys (out'.2.conns i)
  cert : out.2.lastCert = out'.2.lastCert

end Outcome

/-- The records hold the messages in such a way that none of four bytes or more begins
inside a message. The second argument is what the records in front have left of a
message that is split, the third the messages behind it. -/
inductive Followed {X : Type} (K : Crypto X) : List Bytes → Bytes → List HsMsg → Prop
  | done : Followed K [] [] []
  /-- A record of whole messages. -/
  | whole {chunks : List Bytes} {msgs : List HsMsg} (g : List HsMsg)
      (h : Followed K chunks [] msgs) : Followed K (streamOf g :: chunks) [] (g ++ msgs)
  /-- Whole messages and the beginning of another. -/
  | cut {chunks : List Bytes} {msgs : List HsMsg} {m : HsMsg} {k : Nat} (g : List HsMsg)
      (hcut : Cuttable K m k) (h : Followed K chunks (m.bytes.drop k) msgs) :
      Followed K ((streamOf g ++ m.bytes.take k) :: chunks) [] (g ++ m :: msgs)
  /-- Less than four bytes of the rest, which the scan does not look at. -/
  | rest {chunks : List Bytes} {msgs : List HsMsg} {c left : Bytes} (hc : c.length < 4)
      (h : Followed K chunks left msgs) : Followed K (c :: chunks) (c ++ left) msgs
  /-- The end of the rest and the beginning of the next message, in less than four bytes. -/
  | next {chunks : List Bytes} {msgs : List HsMsg} {m : HsMsg} {k : Nat} {c : Bytes}
      (hc : (c ++ m.bytes.take k).length < 4) (hcut : Cuttable K m k)
      (h : Followed K chunks (m.bytes.drop k) msgs) :
      Followed K ((c ++ m.bytes.take k) :: chunks) c (m :: msgs)

/-- What the client can follow: no record of four bytes or more begins inside a message,
every record fits in the buffer with its type, padding and tag, and there are at most
thirty records behind the ServerHello and five in front of it. -/
structure Framing.Readable {X : Type} (K : Crypto X) (f : Framing) (msgs : List HsMsg) :
    Prop where
  aligned : Followed K (f.pieces.map Piece.chunk) [] msgs
  fits : ∀ p ∈ f.pieces, p.body.length ≤ recBufSize
  passes : (f.pieces.map fun p => p.ccs + 1).sum ≤ 30
  before : f.before ≤ 5

/-! ## The flight -/

section Flight
variable {X : Type} {K : Crypto X} {key : Key} {iv : Nonce} {st : FlightState X}

/-- ChangeCipherSpec records are skipped, each in a pass of its own. -/
theorem flightLoop_ccs (hfin : st.gotFin = false) (k n : Nat) :
    ∃ mem, ∀ w, flightLoop K key iv (k + n) st (List.replicate k (some ccsRecord) ++ w) =
      flightLoop K key iv n { st with mem := mem } w := by
  induction k generalizing st with
  | zero =>
      refine ⟨st.mem, ?_⟩
      intro w
      rw [Nat.zero_add, List.replicate_zero, List.nil_append]
  | succ k ih =>
      have hskip : ({ st with mem := overlay ccsRecord.data st.mem } : FlightState X).gotFin =
        false := hfin
      obtain ⟨mem, hmem⟩ := ih hskip
      refine ⟨mem, ?_⟩
      intro w
      have halert : ¬ ccsRecord.type = alertType := by decide
      have hplain : ccsRecord.type ≠ appDataType := by decide
      rw [Nat.add_right_comm, List.replicate_succ, List.cons_append, flightLoop,
        if_neg (by rw [hfin]; exact Bool.false_ne_true)]
      simp only [if_neg halert, if_pos hplain]
      exact hmem w

/-- A piece costs a pass for each of its records; its chunk is hashed and scanned. -/
theorem flightLoop_piece (hfin : st.gotFin = false) {p : Piece}
    (hfits : p.body.length ≤ recBufSize)
    (hopen : openRecord K.aead key iv st.seq p.body =
      some (p.chunk ++ handshakeType :: List.replicate p.pad 0)) (n : Nat) :
    ∃ mem, Holds mem 0 p.chunk ∧ ∀ w,
      flightLoop K key iv (p.ccs + 1 + n) st (p.wire ++ w) =
        flightLoop K key iv n (scanRecord K
          { st with
            seq := st.seq + 1
            transcript := st.transcript ++ [p.chunk]
            mem := mem } ⟨mem, p.chunk.length⟩) w := by
  obtain ⟨mem, hmem⟩ := @flightLoop_ccs X K key iv st hfin p.ccs (n + 1)
  have hlen : ¬ p.body.length < 16 := by
    have := openRecord_length hopen
    rw [List.length_append, List.length_cons] at this
    omega
  have hsplit : splitInner (p.chunk ++ handshakeType :: List.replicate p.pad 0) =
      some (handshakeType, p.chunk) := by
    have hne : ¬ handshakeType = 0 := by decide
    simp [splitInner, hne]
  have halert : ¬ appDataType = alertType := by decide
  have hholds : Holds (overlay (p.chunk ++ handshakeType :: List.replicate p.pad 0)
      (overlay p.body mem)) 0 p.chunk := (holds_overlay _ _).left
  refine ⟨_, hholds, ?_⟩
  intro w
  rw [Piece.wire, List.append_assoc, Nat.add_assoc, Nat.add_comm 1 n, hmem, List.singleton_append,
    protectedRecord, dif_pos hfits, flightLoop, if_neg (by rw [hfin]; exact Bool.false_ne_true)]
  simp only [if_neg halert, ne_eq, not_true_eq_false, if_false, decryptRecord, if_neg hlen, hopen,
    Option.bind_some, hsplit, Option.getD_some, if_true, HsRecord.payload, slice_holds hholds]

/-- The records hold the stream. -/
theorem Followed.flatten {chunks : List Bytes} {left : Bytes} {msgs : List HsMsg}
    (h : Followed K chunks left msgs) : chunks.flatten = left ++ streamOf msgs := by
  induction h with
  | done => rfl
  | whole g _ ih =>
      rw [List.flatten_cons, ih, streamOf_append, List.nil_append, List.nil_append]
  | @cut _ msgs m k g _ _ ih =>
      have hm : streamOf (m :: msgs) = m.bytes ++ streamOf msgs := List.flatMap_cons
      rw [List.flatten_cons, ih, streamOf_append, hm, List.append_assoc,
        ← List.append_assoc (m.bytes.take k), List.take_append_drop, List.nil_append]
  | rest _ _ ih => rw [List.flatten_cons, ih, List.append_assoc]
  | @next _ msgs m k c _ _ _ ih =>
      have hm : streamOf (m :: msgs) = m.bytes ++ streamOf msgs := List.flatMap_cons
      rw [List.flatten_cons, ih, hm, List.append_assoc, ← List.append_assoc (m.bytes.take k),
        List.take_append_drop]

/-- Behind the last record no message is left. -/
theorem Followed.nil_iff {chunks : List Bytes} {msgs : List HsMsg} (h : Followed K chunks [] msgs)
    (hne : ∀ c ∈ chunks, c ≠ []) : msgs = [] ↔ chunks = [] := by
  have hflat := h.flatten
  rw [List.nil_append] at hflat
  constructor
  · rintro rfl
    rw [show streamOf [] = [] from rfl, List.flatten_eq_nil_iff] at hflat
    exact List.eq_nil_iff_forall_not_mem.mpr fun c hc => hne c hc (hflat c hc)
  · rintro rfl
    cases msgs with
    | nil => rfl
    | cons m msgs =>
        have hlen := congrArg List.length hflat
        rw [streamOf, List.flatMap_cons, List.length_append, m.length_bytes, List.flatten_nil,
          List.length_nil] at hlen
        omega

/-- The messages end with their only Finished, and the parser looks behind none of them. -/
structure Closed (K : Crypto X) (msgs : List HsMsg) : Prop where
  ends : ∃ front last, msgs = front ++ [last] ∧ last.type = 20 ∧ ∀ m ∈ front, m.type ≠ 20
  contained : ∀ m ∈ msgs, Contained K m

/-- Messages with more behind them are in front of the Finished. -/
theorem Closed.behind {g msgs : List HsMsg} (h : Closed K (g ++ msgs)) (hne : msgs ≠ []) :
    (∀ m ∈ g, m.type ≠ 20) ∧ Closed K msgs := by
  obtain ⟨⟨front, last, heq, hlast, hfront⟩, hcont⟩ := h
  obtain ⟨front', last', hmsgs⟩ := (List.eq_nil_or_concat msgs).resolve_left hne
  rw [hmsgs, List.concat_eq_append, ← List.append_assoc] at heq
  obtain ⟨rfl, hends⟩ := List.append_inj' heq rfl
  refine ⟨fun m hm => hfront m (List.mem_append_left _ hm), ⟨front', last, ?_, hlast, ?_⟩, ?_⟩
  · rw [hmsgs, List.concat_eq_append, hends]
  · exact fun m hm => hfront m (List.mem_append_right g hm)
  · exact fun m hm => hcont m (List.mem_append_right g hm)

theorem Closed.found {msgs : List HsMsg} (h : Closed K msgs) : ∃ m ∈ msgs, m.type = 20 := by
  obtain ⟨front, last, rfl, hlast, -⟩ := h.ends
  exact ⟨last, by simp, hlast⟩

/-- Another message than the Finished is not the last one. -/
theorem Closed.more {g msgs : List HsMsg} {m : HsMsg} (h : Closed K (g ++ m :: msgs))
    (hm : m.type ≠ 20) : msgs ≠ [] := by
  rintro rfl
  obtain ⟨front, last, heq, hlast, -⟩ := h.ends
  obtain ⟨-, hends⟩ := List.append_inj' heq rfl
  exact hm ((List.cons.inj hends).1 ▸ hlast)

/-- Records that hold the chunks arrive within `n` passes, sealed under the numbers from
`seq` on. -/
structure Arrive (K : Crypto X) (key : Key) (iv : Nonce) (seq : UInt64) (n : Nat)
    (pieces : List Piece) (chunks : List Bytes) : Prop where
  hold : pieces.map Piece.chunk = chunks
  ne : ∀ c ∈ chunks, c ≠ []
  fits : ∀ p ∈ pieces, p.body.length ≤ recBufSize
  opens : ∀ i p, pieces[i]? = some p → openRecord K.aead key iv (seq + UInt64.ofNat i) p.body =
    some (p.chunk ++ handshakeType :: List.replicate p.pad 0)
  passes : (pieces.map fun p => p.ccs + 1).sum ≤ n

/-- The first record is hashed and scanned. What the scan finds is given. -/
theorem Arrive.step {n : Nat} {pieces : List Piece} {c : Bytes} {chunks : List Bytes}
    (h : Arrive K key iv st.seq n pieces (c :: chunks)) (hfin : st.gotFin = false) (found : Bool)
    (cert : Option X)
    (hscan : ∀ mem, Holds mem 0 c → scanRecord K
      { st with
        seq := st.seq + 1
        transcript := st.transcript ++ [c]
        mem := mem } ⟨mem, c.length⟩ =
      ⟨st.seq + 1, st.transcript ++ [c], st.gotFin || found, cert, mem⟩) :
    ∃ n' pieces' mem, Arrive K key iv (st.seq + 1) n' pieces' chunks ∧ ∀ wire,
      flightLoop K key iv n st (pieces.flatMap Piece.wire ++ wire) =
        flightLoop K key iv n' ⟨st.seq + 1, st.transcript ++ [c], found, cert, mem⟩
          (pieces'.flatMap Piece.wire ++ wire) := by
  obtain ⟨hhold, hne, hfits, hopens, hn⟩ := h
  obtain ⟨p, pieces, rfl, rfl, hrest⟩ := List.map_eq_cons_iff.mp hhold
  rw [List.map_cons, List.sum_cons] at hn
  obtain ⟨n', rfl⟩ := Nat.exists_eq_add_of_le (Nat.le_of_add_right_le hn)
  have hfirst := hopens 0 p rfl
  rw [show st.seq + UInt64.ofNat 0 = st.seq from UInt64.add_zero _] at hfirst
  obtain ⟨mem, hmem⟩ : ∃ mem, ∀ w, flightLoop K key iv (p.ccs + 1 + n') st (p.wire ++ w) =
      flightLoop K key iv n' ⟨st.seq + 1, st.transcript ++ [p.chunk], found, cert, mem⟩ w := by
    obtain ⟨mem, hholds, hmem⟩ := flightLoop_piece hfin (hfits p List.mem_cons_self) hfirst n'
    refine ⟨mem, ?_⟩
    intro w
    rw [hmem, hscan mem hholds, hfin, Bool.false_or]
  refine ⟨n', pieces, mem, ⟨hrest, ?_, ?_, ?_, by omega⟩, ?_⟩
  · exact fun c hc => hne c (List.mem_cons_of_mem _ hc)
  · exact fun q hq => hfits q (List.mem_cons_of_mem p hq)
  · intro i q hq
    have hnext := hopens (i + 1) q hq
    rwa [UInt64.ofNat_add, UInt64.add_comm (UInt64.ofNat i), ← UInt64.add_assoc] at hnext
  · intro wire
    rw [List.flatMap_cons, List.append_assoc, hmem]

/-- A flight that the client can follow is read to its Finished. -/
theorem flightLoop_flight {chunks : List Bytes} {left : Bytes} {msgs : List HsMsg}
    (h : Followed K chunks left msgs) (st : FlightState X) (hclosed : Closed K msgs) {n : Nat}
    {pieces : List Piece} (harrive : Arrive K key iv st.seq n pieces chunks)
    (hfin : st.gotFin = false) (wire : Wire) :
    ∃ seq mem, flightLoop K key iv n st (pieces.flatMap Piece.wire ++ wire) =
      (true, ⟨seq, st.transcript ++ chunks, true, certBehind K st.lastCert msgs, mem⟩) := by
  induction h generalizing pieces n st with
  | done =>
      obtain ⟨m, hm, -⟩ := hclosed.found
      cases hm
  | @whole chunks msgs g h ih =>
      have hcont : ∀ m ∈ g, Contained K m := fun m hm =>
        hclosed.contained m (List.mem_append_left _ hm)
      obtain ⟨n', pieces', mem, harrive', hstep⟩ := harrive.step hfin
        (decide (∃ m ∈ g, m.type = 20)) (certBehind K st.lastCert g) fun mem hholds =>
          scanRecord_whole hholds hcont
      have hiff := h.nil_iff fun c hc => harrive.ne c (List.mem_cons_of_mem _ hc)
      by_cases hend : msgs = []
      · -- the last record holds the Finished
        rw [hend, List.append_nil] at hclosed ⊢
        have hfound := hclosed.found
        refine ⟨st.seq + 1, mem, ?_⟩
        rw [hstep, flightLoop_done _ _ _ _ _ (decide_eq_true hfound), hiff.mp hend]
        simp only [hfound, decide_true]
      · obtain ⟨hfront, hbehind⟩ := hclosed.behind hend
        have hnone : ¬ ∃ m ∈ g, m.type = 20 := fun ⟨m, hm, htype⟩ => hfront m hm htype
        rw [decide_eq_false hnone] at hstep
        obtain ⟨seq, mem', hloop⟩ := ih
          ⟨st.seq + 1, st.transcript ++ [streamOf g], false, certBehind K st.lastCert g, mem⟩
          hbehind harrive' rfl
        refine ⟨seq, mem', ?_⟩
        rw [hstep, hloop, certBehind_append, List.append_assoc, List.singleton_append]
  | @cut chunks msgs m k g hcut h ih =>
      have hcont : ∀ m' ∈ g, Contained K m' := fun m' hm' =>
        hclosed.contained m' (List.mem_append_left _ hm')
      obtain ⟨n', pieces', mem, harrive', hstep⟩ := harrive.step hfin
        (decide (∃ m ∈ g, m.type = 20)) (certBehind K st.lastCert (g ++ [m]))
          fun mem hholds => scanRecord_cut hholds hcut hcont
      have hmore := hclosed.more hcut.notFinished
      rw [List.append_cons g] at hclosed ⊢
      obtain ⟨hfront, hbehind⟩ := hclosed.behind hmore
      have hnone : ¬ ∃ m ∈ g, m.type = 20 :=
        fun ⟨m', hm', htype⟩ => hfront m' (List.mem_append_left _ hm') htype
      rw [decide_eq_false hnone] at hstep
      obtain ⟨seq, mem', hloop⟩ := ih ⟨st.seq + 1,
        st.transcript ++ [streamOf g ++ m.bytes.take k], false,
        certBehind K st.lastCert (g ++ [m]), mem⟩ hbehind harrive' rfl
      refine ⟨seq, mem', ?_⟩
      rw [hstep, hloop, certBehind_append _ (g ++ [m]), List.append_assoc st.transcript,
        List.singleton_append]
  | @rest chunks msgs c left hc h ih =>
      obtain ⟨n', pieces', mem, harrive', hstep⟩ := harrive.step hfin false st.lastCert
        fun mem hholds => scanRecord_short hholds hc
      obtain ⟨seq, mem', hloop⟩ := ih
        ⟨st.seq + 1, st.transcript ++ [c], false, st.lastCert, mem⟩ hclosed harrive' rfl
      refine ⟨seq, mem', ?_⟩
      rw [hstep, hloop, List.append_assoc, List.singleton_append]
  | @next chunks msgs m k c hc hcut h ih =>
      obtain ⟨n', pieces', mem, harrive', hstep⟩ := harrive.step hfin false st.lastCert
        fun mem hholds => scanRecord_short hholds hc
      have hmore := hclosed.more (g := []) hcut.notFinished
      rw [← List.singleton_append (l := msgs)] at hclosed ⊢
      obtain ⟨-, hbehind⟩ := hclosed.behind hmore
      obtain ⟨seq, mem', hloop⟩ := ih
        ⟨st.seq + 1, st.transcript ++ [c ++ m.bytes.take k], false, st.lastCert, mem⟩
        hbehind harrive' rfl
      -- less than a header is there, so it is no Certificate
      have hcert : certBehind K st.lastCert [m] = st.lastCert := by
        have hk : k < 4 := by
          have hlt := hcut.lt
          rw [List.length_append, List.length_take] at hc
          omega
        have htype : m.type ≠ 11 := fun htype => Nat.not_le.mpr hk (hcut.cert htype).1
        rw [certBehind, List.foldl_cons, List.foldl_nil, certOf_of_type htype]
        rfl
      refine ⟨seq, mem', ?_⟩
      rw [hstep, hloop, certBehind_append _ [m], hcert, List.append_assoc st.transcript,
        List.singleton_append]

end Flight

/-! ## The outcome -/

section Connect
variable {X : Type} {K : Crypto X}

theorem SameOutcome.refl (out : Int × TlsGlobals X) : SameOutcome out out :=
  ⟨rfl, fun _ => rfl, rfl⟩

theorem SameOutcome.of_eq {out out' : Int × TlsGlobals X} (h : out = out') :
    SameOutcome out out' :=
  h ▸ .refl out

theorem SameOutcome.symm {out out' : Int × TlsGlobals X} (h : SameOutcome out out') :
    SameOutcome out' out :=
  ⟨h.ret.symm, fun i => (h.keys i).symm, h.cert.symm⟩

theorem SameOutcome.trans {out out' out'' : Int × TlsGlobals X} (h : SameOutcome out out')
    (h' : SameOutcome out' out'') : SameOutcome out out'' :=
  ⟨h.ret.trans h'.ret, fun i => (h.keys i).trans (h'.keys i), h.cert.trans h'.cert⟩

/-- What a record leaves of the records in front of it: nothing of a single byte. -/
theorem overlay_ccs {data : Bytes} (hne : data ≠ []) (mem : Mem) :
    overlay data (overlay ccsRecord.data mem) = overlay data mem := by
  funext i
  cases i with
  | zero =>
      obtain ⟨b, data, rfl⟩ := List.exists_cons_of_ne_nil hne
      rfl
  | succ i =>
      have hnone : ccsRecord.data[i + 1]? = none := rfl
      simp only [overlay, hnone, Option.getD_none]

/-- Up to five ChangeCipherSpec records in front of the ServerHello make no
difference. -/
theorem readServerHello_before {hello : TlsRecord} (htype : hello.type = handshakeType)
    (hne : hello.data ≠ []) {tries k : Nat} (hk : tries + k ≤ 5) (mem : Mem) (w : Wire) :
    readServerHello tries mem (List.replicate k (some ccsRecord) ++ some hello :: w) =
      (some (hello, w), overlay hello.data mem) := by
  induction k generalizing tries mem with
  | zero =>
      have hccs : ¬ handshakeType = changeCipherType := by decide
      have halert : ¬ handshakeType = alertType := by decide
      simp only [List.replicate_zero, List.nil_append, readServerHello, htype, if_neg hccs,
        if_neg halert]
  | succ k ih =>
      have hccs : ccsRecord.type = changeCipherType := rfl
      rw [List.replicate_succ, List.cons_append, readServerHello]
      simp only [if_pos hccs, if_neg (show ¬ 5 < tries + 1 by omega)]
      rw [ih (by omega), overlay_ccs hne]

/-- The application keys depend on the transcript as a whole. -/
theorem trafficKeys_finishConnect {c c' : TlsConn} {saved : Bytes}
    (hkeys : trafficKeys c = trafficKeys c')
    (hflat : c.transcript.flatten = c'.transcript.flatten) :
    trafficKeys (finishConnect K c saved) = trafficKeys (finishConnect K c' saved) := by
  simp only [trafficKeys, List.cons.injEq, Prod.mk.injEq] at hkeys
  simp only [trafficKeys, finishConnect, deriveAppKeys, hflat, hkeys]

/-- The end of a flight, when the pieces of the transcript have the same bytes. -/
theorem endFlight_same {g g' : TlsGlobals X} (i : Fin 4) (c : TlsConn) {seq seq' : UInt64}
    {tr tr' : List Bytes} (cert : Option X) {mem mem' : Mem} (hconns : g.conns = g'.conns)
    (hsaved : g.savedHsSecret = g'.savedHsSecret) (htr : tr.flatten = tr'.flatten) :
    SameOutcome (endFlight K g i c (true, ⟨seq, tr, true, cert, mem⟩))
      (endFlight K g' i c (true, ⟨seq', tr', true, cert, mem'⟩)) := by
  have hbad : ¬ (true = false ∨ true = false) := by simp
  simp only [endFlight, if_neg hbad]
  refine ⟨rfl, fun j => ?_, rfl⟩
  by_cases hj : j = i
  · subst hj
    simp only [Function.update_self, hsaved]
    exact trafficKeys_finishConnect rfl htr
  · simp only [Function.update_of_ne hj, hconns]

/-- The outcome that the messages call for: that of a call whose flight is the whole
stream in one piece. -/
def expected (K : Crypto X) (g : TlsGlobals X) (a : ConnectArgs) (m : ServerMessages) :
    Int × TlsGlobals X :=
  match (List.finRange 4).find? fun i => (g.conns i).used = false with
  | none => (-1, g)
  | some i =>
      match parseServerHello (overlay m.hello.data g.recBuf) m.hello.data.length with
      | none => failConnect g i
      | some sPub =>
          let c : TlsConn :=
            { TlsConn.zero with
              used := true
              tcpId := a.tcpId
              cPriv := a.priv
              cPub := K.x25519Public a.priv
              transcript := [clientHello a.host a.random (K.x25519Public a.priv), m.hello.data]
              sPub := sPub
              ecdhe := K.x25519Shared a.priv sPub }
          endFlight K { g with
              savedHsSecret := (hsSecrets K c.ecdhe (K.sha256 c.transcript.flatten)).hsSecret } i
            (deriveHsKeys K c (K.sha256 c.transcript.flatten))
            (true, ⟨0, c.transcript ++ [streamOf m.flight], true,
              certBehind K g.lastCert m.flight, g.recBuf⟩)

/-- Of the messages only the Certificate is parsed, and only the Finished ends them. -/
theorem ServerMessages.closed {m : ServerMessages} (hcert : Contained K m.certificate) :
    Closed K m.flight where
  ends := by
    refine ⟨m.front, m.finished, rfl, m.types.2.2.2, ?_⟩
    simp [ServerMessages.front, m.types]
  contained := by
    intro msg hmsg
    by_cases hc : msg.type = 11
    · have heq : msg = m.certificate := by
        simp only [ServerMessages.flight, ServerMessages.front, List.cons_append, List.nil_append,
          List.mem_cons, List.not_mem_nil, or_false] at hmsg
        rcases hmsg with rfl | rfl | rfl | rfl <;> simp_all [m.types]
      exact heq ▸ hcert
    · exact contained_of_type hc

/-- The records of a framing arrive within the thirty passes of the loop. -/
theorem Framing.Readable.arrive {f : Framing} {msgs : List HsMsg} {key : Key} {iv : Nonce}
    {stream : Bytes} (h : f.Readable K msgs) (hof : f.Of K.aead key iv stream) :
    Arrive K key iv 0 30 f.pieces (f.pieces.map Piece.chunk) where
  hold := rfl
  ne := by
    intro c hc
    obtain ⟨p, hp, rfl⟩ := List.mem_map.mp hc
    exact hof.chunk_ne p hp
  fits := h.fits
  opens := by
    intro i p hp
    rw [UInt64.zero_add]
    exact hof.opens i p hp
  passes := h.passes

/-- A framing that the client can follow leads to that outcome. -/
theorem Framing.Readable.outcome {g : TlsGlobals X} {a : ConnectArgs} {m : ServerMessages}
    {f : Framing} (hf : f.Sends K g a m) (h : f.Readable K m.flight)
    (hcert : Contained K m.certificate) (rest : Wire) :
    SameOutcome (tls13Connect K g { a with wire := f.wire m.hello ++ rest })
      (expected K g a m) := by
  have hbefore : 0 + f.before ≤ 5 := by simpa using h.before
  have hread := readServerHello_before m.hello_type m.hello_ne hbefore g.recBuf
    (f.pieces.flatMap Piece.wire ++ rest)
  have hwire : f.wire m.hello ++ rest = List.replicate f.before (some ccsRecord) ++
      some m.hello :: (f.pieces.flatMap Piece.wire ++ rest) := by
    rw [Framing.wire, List.append_assoc, List.cons_append]
  unfold tls13Connect expected
  cases hfind : (List.finRange 4).find? fun i => (g.conns i).used = false with
  | none => exact .refl _
  | some i =>
      simp only [hwire, hread, m.hello_type, ne_eq, not_true_eq_false, if_false]
      cases hparse : parseServerHello (overlay m.hello.data g.recBuf) m.hello.data.length with
      | none => exact ⟨rfl, fun _ => rfl, rfl⟩
      | some sPub =>
          have hof := hf sPub hparse
          obtain ⟨seq, mem, hloop⟩ := flightLoop_flight h.aligned
            ⟨0, [clientHello a.host a.random (K.x25519Public a.priv), m.hello.data], false,
              g.lastCert, overlay m.hello.data g.recBuf⟩
            (m.closed hcert) (h.arrive hof) rfl rest
          have htr : ([clientHello a.host a.random (K.x25519Public a.priv), m.hello.data] ++
              f.pieces.map Piece.chunk).flatten =
              ([clientHello a.host a.random (K.x25519Public a.priv), m.hello.data] ++
                [streamOf m.flight]).flatten := by
            rw [List.flatten_append, List.flatten_append, ← List.flatMap_def, hof.whole,
              List.flatten_singleton]
          simp only [connectFlight]
          exact (SameOutcome.of_eq (congrArg (endFlight K _ i _) hloop)).trans
            (endFlight_same i _ _ rfl rfl htr)

/-- The outcome does not depend on the framing, as long as the client can follow it. -/
theorem framing_independent (K : Crypto X) (g : TlsGlobals X) (a : ConnectArgs)
    (m : ServerMessages) (f f' : Framing) (rest rest' : Wire) (hf : f.Sends K g a m)
    (hf' : f'.Sends K g a m) (hcert : Contained K m.certificate) (h : f.Readable K m.flight)
    (h' : f'.Readable K m.flight) :
    SameOutcome (tls13Connect K g { a with wire := f.wire m.hello ++ rest })
      (tls13Connect K g { a with wire := f'.wire m.hello ++ rest' }) :=
  (h.outcome hf hcert rest).trans (h'.outcome hf' hcert rest').symm

end Connect

/-! ## Two framings -/

/-- Record number `i` of a server that seals a chunk in it. -/
def sealPiece (keys : Key × Nonce) (i : Nat) (chunk : Bytes) : Piece :=
  ⟨0, chunk, 0, wireBody keys.1 keys.2 (UInt64.ofNat i) handshakeType chunk⟩

/-- The records of a server that seals the chunks one after the other. -/
def sealPieces (keys : Key × Nonce) (chunks : List Bytes) : List Piece :=
  chunks.mapIdx (sealPiece keys)

theorem sealPieces_of (keys : Key × Nonce) {chunks : List Bytes} (before : Nat)
    (h : ∀ c ∈ chunks, c ≠ [] ∧ c.length ≤ 16384) :
    Framing.Of ⟨before, sealPieces keys chunks⟩ gcmAead keys.1 keys.2 chunks.flatten where
  whole := by
    rw [List.flatMap_def]
    congr 1
    apply List.ext_getElem <;> simp [sealPieces, sealPiece]
  chunk_ne p hp := by
    obtain ⟨i, hi, rfl⟩ := List.mem_iff_getElem.mp hp
    simp only [sealPieces, sealPiece, List.getElem_mapIdx]
    exact (h _ (List.getElem_mem _)).1
  small p hp := by
    obtain ⟨i, hi, rfl⟩ := List.mem_iff_getElem.mp hp
    simp only [sealPieces, sealPiece, List.getElem_mapIdx]
    exact (h _ (List.getElem_mem _)).2
  opens i p hp := by
    simp only [sealPieces, List.getElem?_mapIdx, Option.map_eq_some_iff] at hp
    obtain ⟨chunk, -, rfl⟩ := hp
    exact openRecord_wireBody

/-- Records of whole messages. -/
theorem followed_groups {X : Type} (K : Crypto X) (groups : List (List HsMsg)) :
    Followed K (groups.map streamOf) [] groups.flatten := by
  induction groups with
  | nil => exact .done
  | cons g groups ih => exact .whole g ih

/-- Chunks of whole messages that are not too long can be followed. -/
theorem sealPieces_readable {X : Type} (K : Crypto X) (keys : Key × Nonce) {before : Nat}
    {groups : List (List HsMsg)} {msgs : List HsMsg} (hflat : groups.flatten = msgs)
    (hlen : ∀ g ∈ groups, (streamOf g).length + 17 ≤ recBufSize) (hn : groups.length ≤ 30)
    (hbefore : before ≤ 5) :
    Framing.Readable K ⟨before, sealPieces keys (groups.map streamOf)⟩ msgs where
  aligned := by
    have hchunks : (sealPieces keys (groups.map streamOf)).map Piece.chunk =
        groups.map streamOf := by
      apply List.ext_getElem <;> simp [sealPieces, sealPiece]
    rw [hchunks, ← hflat]
    exact followed_groups K groups
  fits p hp := by
    obtain ⟨i, hi, rfl⟩ := List.mem_iff_getElem.mp hp
    simp only [sealPieces, sealPiece, List.getElem_mapIdx, wireBody_length, List.getElem_map]
    exact hlen _ (List.getElem_mem _)
  passes := by
    have hones : (sealPieces keys (groups.map streamOf)).map (fun p => p.ccs + 1) =
        List.replicate groups.length 1 := by
      apply List.ext_getElem <;> simp [sealPieces, sealPiece]
    rw [hones, List.sum_replicate, smul_eq_mul, mul_one]
    exact hn
  before := hbefore

/-- A ServerHello with the base point as key share. -/
def helloBytes : Bytes :=
  [2, 0, 0, 86, 3, 3] ++ List.replicate 32 0 ++ [0, 0x13, 0x01, 0, 0, 46] ++
    [0, 0x2b, 0, 2, 3, 4] ++ [0, 0x33, 0, 36, 0, 0x1d, 0, 32] ++ 9 :: List.replicate 31 0

/-- The base point. -/
def basePoint : Bytes := 9 :: List.replicate 31 0

theorem helloBytes_parse :
    parseServerHello (overlay helloBytes fun _ => 0) helloBytes.length = some basePoint := by
  decide

theorem helloBytes_fits : helloBytes.length ≤ recBufSize := by decide

/-- A certificate with empty fields. -/
def smallDer : Bytes := [0x30, 10, 0x30, 8, 0x30, 0, 0x30, 0, 0x30, 0, 0x30, 0]

theorem two_bytes_short : ([0, 0] : Bytes).length < 16777216 := by decide

theorem certificate_short :
    ([0, 0, 0, 17, 0, 0, 12] ++ smallDer ++ [0, 0]).length < 16777216 := by decide

theorem verify_short : ([8, 4, 0, 0] : Bytes).length < 16777216 := by decide

section Sample
variable {X : Type} (K : Crypto X)

theorem verifyData_length (traffic : Bytes) (transcript : List Bytes) :
    (verifyData K traffic transcript).length = 32 := by
  rw [verifyData, Crypto.hmacSha256, K.sha256_length]

theorem verifyData_short (traffic : Bytes) (transcript : List Bytes) :
    (verifyData K traffic transcript).length < 16777216 := by
  rw [verifyData_length]
  decide

def sampleFront : List HsMsg :=
  [⟨8, [0, 0], two_bytes_short⟩,
    ⟨11, [0, 0, 0, 17, 0, 0, 12] ++ smallDer ++ [0, 0], certificate_short⟩,
    ⟨15, [8, 4, 0, 0], verify_short⟩]

/-- A connection without a host name. -/
def sampleArgs : ConnectArgs := ⟨0, none, [], [], []⟩

/-- The Finished of a server with these messages. -/
def sampleVerify : Bytes :=
  verifyData K (serverTraffic K sampleArgs helloBytes basePoint)
    (hellosOf K sampleArgs helloBytes ++ [streamOf sampleFront])

def sampleMessages : ServerMessages where
  hello := ⟨handshakeType, helloBytes, helloBytes_fits⟩
  hello_type := rfl
  hello_ne := List.cons_ne_nil _ _
  encryptedExtensions := ⟨8, [0, 0], two_bytes_short⟩
  certificate := ⟨11, [0, 0, 0, 17, 0, 0, 12] ++ smallDer ++ [0, 0], certificate_short⟩
  certificateVerify := ⟨15, [8, 4, 0, 0], verify_short⟩
  finished := ⟨20, sampleVerify K, verifyData_short K _ _⟩
  types := ⟨rfl, rfl, rfl, rfl⟩

theorem sample_genuine : Genuine K (noConnections (X := X)) sampleArgs (sampleMessages K) := by
  intro sPub hparse
  have hshare : sPub = basePoint := Option.some.inj (hparse.symm.trans helloBytes_parse)
  rw [hshare]
  rfl

/-- The chunks, sealed under the keys of the server. -/
def sampleFraming (before : Nat) (chunks : List Bytes) : Framing :=
  ⟨before, sealPieces (serverKeys K sampleArgs helloBytes basePoint) chunks⟩

variable {K}

theorem sampleFraming_sends (hK : K.aead = gcmAead) (before : Nat) {chunks : List Bytes}
    (hflat : chunks.flatten = streamOf (sampleMessages K).flight)
    (h : ∀ c ∈ chunks, c ≠ [] ∧ c.length ≤ 16384) :
    (sampleFraming K before chunks).Sends K (noConnections (X := X)) sampleArgs
      (sampleMessages K) := by
  intro sPub hparse
  have hshare : sPub = basePoint := Option.some.inj (hparse.symm.trans helloBytes_parse)
  rw [hshare, hK, ← hflat]
  exact sealPieces_of _ before h

theorem streamOf_sampleFront_length : (streamOf sampleFront).length = 39 := by decide

theorem finished_bytes : (sampleMessages K).finished.bytes = [20, 0, 0, 32] ++ sampleVerify K := by
  have hlen : (sampleVerify K).length = 32 := verifyData_length K _ _
  simp [HsMsg.bytes, sampleMessages, hlen]

theorem sampleVerify_length : (sampleVerify K).length = 32 := verifyData_length K _ _

theorem streamOf_finished_length : (streamOf [(sampleMessages K).finished]).length = 36 := by
  rw [streamOf, List.flatMap_singleton, finished_bytes, List.length_append, sampleVerify_length]
  rfl

theorem sample_flight :
    [sampleFront, [(sampleMessages K).finished]].flatten = (sampleMessages K).flight := rfl

theorem streamOf_flight :
    streamOf (sampleMessages K).flight =
      streamOf sampleFront ++ streamOf [(sampleMessages K).finished] := by
  rw [← sample_flight, List.flatten_cons, List.flatten_singleton, streamOf_append]

theorem streamOf_flight_length : (streamOf (sampleMessages K).flight).length = 75 := by
  rw [streamOf_flight, List.length_append, streamOf_sampleFront_length, streamOf_finished_length]

theorem sampleFraming_one_sends (hA : K.aead = gcmAead) :
    (sampleFraming K 0 [streamOf (sampleMessages K).flight]).Sends K (noConnections (X := X))
      sampleArgs (sampleMessages K) := by
  apply sampleFraming_sends hA 0 (List.flatten_singleton)
  intro c hc
  have hlen := streamOf_flight_length (K := K)
  rw [List.mem_singleton.mp hc]
  exact ⟨List.ne_nil_of_length_pos (by omega), by omega⟩

theorem sampleFraming_two_sends (hA : K.aead = gcmAead) :
    (sampleFraming K 1 [streamOf sampleFront, streamOf [(sampleMessages K).finished]]).Sends K
      (noConnections (X := X)) sampleArgs (sampleMessages K) := by
  apply sampleFraming_sends hA 1
  · rw [streamOf_flight, List.flatten_cons, List.flatten_singleton]
  · intro c hc
    have hfront := streamOf_sampleFront_length
    have hfin := streamOf_finished_length (K := K)
    simp only [List.mem_cons, List.not_mem_nil, or_false] at hc
    rcases hc with rfl | rfl
    · exact ⟨List.ne_nil_of_length_pos (by omega), by omega⟩
    · exact ⟨List.ne_nil_of_length_pos (by omega), by omega⟩

theorem sampleFraming_two_readable :
    (sampleFraming K 1 [streamOf sampleFront, streamOf [(sampleMessages K).finished]]).Readable
      K (sampleMessages K).flight := by
  refine sealPieces_readable K _ sample_flight ?_ (by simp) (by decide)
  intro g hg
  simp only [List.mem_cons, List.not_mem_nil, or_false] at hg
  rcases hg with rfl | rfl
  · rw [streamOf_sampleFront_length]
    decide
  · rw [streamOf_finished_length]
    decide

theorem sampleFraming_one_readable :
    (sampleFraming K 0 [streamOf (sampleMessages K).flight]).Readable
      K (sampleMessages K).flight := by
  have hflat : [(sampleMessages K).flight].flatten = (sampleMessages K).flight :=
    List.flatten_singleton
  refine sealPieces_readable K _ hflat ?_ (by simp) (by decide)
  intro g hg
  rw [List.mem_singleton.mp hg, streamOf_flight_length]
  decide

theorem sample_slot :
    (List.finRange 4).find? (fun i => decide (((noConnections (X := X)).conns i).used = false)) =
      some 0 := rfl

theorem sample_parse :
    parseServerHello (overlay (sampleMessages K).hello.data (noConnections (X := X)).recBuf)
      (sampleMessages K).hello.data.length = some basePoint :=
  helloBytes_parse

/-- The messages call for a connection. -/
theorem sample_expected :
    (expected K (noConnections (X := X)) sampleArgs (sampleMessages K)).1 = 0 := by
  have hok : ¬ (true = false ∨ true = false) := by simp
  simp only [expected, sample_slot, sample_parse, endFlight, if_neg hok]

/-- The rest of a split Finished holds no Finished. -/
theorem no_finished_behind {mem : Mem} {verify : Bytes} (h : Holds mem 0 ([0, 32] ++ verify))
    (hverify : verify.length = 32) :
    ¬ HsRecord.hasFinished ⟨mem, ([0, 32] ++ verify).length⟩ := by
  have h0 := h 0 (by simp)
  have h1 := h 1 (by simp)
  simp only [Nat.zero_add, List.cons_append, List.getElem_cons_zero,
    List.getElem_cons_succ] at h0 h1
  have hlong : 2097152 ≤ rd24 mem 1 := by
    rw [rd24, h1]
    exact Nat.le_trans (Nat.le_add_right 2097152 _) (Nat.le_add_right _ _)
  have hlen : ([0, 32] ++ verify).length = 33 + 1 := by simp [hverify]
  have hoffsets : HsRecord.offsets ⟨mem, ([0, 32] ++ verify).length⟩ = [0] := by
    rw [HsRecord.offsets, hlen, hsOffsets, if_pos (show 0 + 4 ≤ 33 + 1 by decide)]
    simp only [Nat.zero_add]
    rw [hsOffsets, if_neg (by omega)]
  rintro ⟨hp, hmem, htype⟩
  rw [hoffsets, List.mem_singleton] at hmem
  simp only [hmem, h0] at htype
  exact absurd htype (by decide)

/-- The start of the Finished is too short for a header, and its rest looks like a
message that is longer than the record. -/
theorem flightLoop_split {keys : Key × Nonce} {st : FlightState X} {verify : Bytes}
    (hseq : st.seq = 0) (hfin : st.gotFin = false) (hA : K.aead = gcmAead) (hK : ReadsInside K)
    (hverify : verify.length = 32) :
    (flightLoop K keys.1 keys.2 30 st
      ((sealPieces keys [streamOf sampleFront ++ [20, 0], [0, 32] ++ verify]).flatMap Piece.wire ++
        [])).1 = false := by
  have hlen : ∀ (i : Nat) {c : Bytes}, c.length ≤ 100 →
      (sealPiece keys i c).body.length ≤ recBufSize := by
    intro i c hc
    rw [sealPiece, wireBody_length]
    unfold recBufSize
    omega
  have hopen : ∀ (i : Nat) (c : Bytes), openRecord K.aead keys.1 keys.2 (UInt64.ofNat i)
      (sealPiece keys i c).body = some (c ++ handshakeType :: List.replicate 0 0) := by
    intro i c
    rw [hA]
    exact openRecord_wireBody
  obtain ⟨mem, hmem, hstep⟩ := @flightLoop_piece X K keys.1 keys.2 st hfin
    (sealPiece keys 0 (streamOf sampleFront ++ [20, 0]))
    (hlen 0 (by decide)) (by rw [hseq]; exact hopen 0 _) 29
  have hfront : ¬ ∃ m ∈ sampleFront, m.type = 20 := by decide
  have hscan : scanRecord K
      { st with
        seq := st.seq + 1
        transcript := st.transcript ++ [streamOf sampleFront ++ [20, 0]]
        mem := mem } _ = _ :=
    scanRecord_stream hmem (by decide) fun m _ => contained_of_readsInside hK m
  obtain ⟨mem', hmem', hstep'⟩ := @flightLoop_piece X K keys.1 keys.2
    { st with
      seq := st.seq + 1
      transcript := st.transcript ++ [streamOf sampleFront ++ [20, 0]]
      gotFin := st.gotFin || decide (∃ m ∈ sampleFront, m.type = 20)
      lastCert := certBehind K st.lastCert sampleFront
      mem := mem } (by simp [hfin, hfront]) (sealPiece keys 1 ([0, 32] ++ verify))
    (hlen 1 (by simp [hverify])) (by rw [hseq]; exact hopen 1 _) 28
  have hnone : ¬ HsRecord.hasFinished
      ⟨mem', (sealPiece keys 1 ([0, 32] ++ verify)).chunk.length⟩ :=
    no_finished_behind hmem' hverify
  calc (flightLoop K keys.1 keys.2 30 st
        ((sealPieces keys [streamOf sampleFront ++ [20, 0], [0, 32] ++ verify]).flatMap
          Piece.wire ++ [])).1
      _ = (flightLoop K keys.1 keys.2 (0 + 1 + 29) st
          ((sealPiece keys 0 (streamOf sampleFront ++ [20, 0])).wire ++
            ((sealPiece keys 1 ([0, 32] ++ verify)).wire ++ []))).1 := by
        simp [sealPieces]
      _ = _ := congrArg Prod.fst ((hstep _).trans (congrArg (fun st =>
        flightLoop K keys.1 keys.2 29 st
          ((sealPiece keys 1 ([0, 32] ++ verify)).wire ++ [])) hscan))
      _ = _ := congrArg Prod.fst (hstep' [])
      _ = false := by
        rw [scanRecord_spec, flightLoop, if_neg]
        simp only [hfin, hfront, hnone, decide_false, Bool.or_false]
        exact Bool.false_ne_true

/-- The connection fails on a split Finished. -/
theorem sample_split (hA : K.aead = gcmAead) (hK : ReadsInside K) :
    (tls13Connect K noConnections { sampleArgs with
      wire := (sampleFraming K 0 [streamOf sampleFront ++ [20, 0], [0, 32] ++ sampleVerify K]).wire
        (sampleMessages K).hello ++ [] }).1 = -1 := by
  have hbefore : 0 + 0 ≤ 5 := by decide
  have hread := readServerHello_before (sampleMessages K).hello_type (sampleMessages K).hello_ne
    hbefore (noConnections (X := X)).recBuf
    ((sampleFraming K 0 [streamOf sampleFront ++ [20, 0], [0, 32] ++ sampleVerify K]).pieces.flatMap
      Piece.wire ++ [])
  rw [List.replicate_zero, List.nil_append] at hread
  have hloop := @flightLoop_split X K (serverKeys K sampleArgs helloBytes basePoint)
    ⟨0, hellosOf K sampleArgs helloBytes, false, none, overlay helloBytes fun _ => 0⟩
    (sampleVerify K) rfl rfl hA hK sampleVerify_length
  have hwire : (sampleFraming K 0 [streamOf sampleFront ++ [20, 0],
      [0, 32] ++ sampleVerify K]).wire (sampleMessages K).hello ++ [] =
      some (sampleMessages K).hello :: ((sampleFraming K 0 [streamOf sampleFront ++ [20, 0],
        [0, 32] ++ sampleVerify K]).pieces.flatMap Piece.wire ++ []) := rfl
  simp only [tls13Connect, sample_slot, hwire, hread, (sampleMessages K).hello_type, ne_eq,
    not_true_eq_false, if_false, sample_parse, connectFlight, endFlight]
  rw [if_pos]
  · rfl
  · exact Or.inl hloop

end Sample

/-- Primitives whose hash is constant and whose parser takes every certificate. -/
def sampleCrypto : Crypto Bytes where
  aead := gcmAead
  sha256 := fun _ => List.replicate 32 0
  sha256_length := fun _ => List.length_replicate
  x25519Public := id
  x25519Shared := fun _ sPub => sPub
  x509Parse := fun mem n => some (slice mem 0 n)
  x509CheckHostname := fun _ _ => 0

theorem sampleCrypto_aead : sampleCrypto.aead = gcmAead := rfl

theorem sampleCrypto_readsInside : ReadsInside sampleCrypto := by
  intro mem mem' n h
  simp only [sampleCrypto, slice, Nat.zero_add]
  congr 1
  apply List.map_congr_left
  intro i hi
  exact h i (List.mem_range.mp hi)

/-- The messages in one record and in two, with a ChangeCipherSpec record in front. -/
theorem framing_independent_two :
    SameOutcome
      (tls13Connect sampleCrypto noConnections { sampleArgs with
        wire := (sampleFraming sampleCrypto 0 [streamOf (sampleMessages sampleCrypto).flight]).wire
          (sampleMessages sampleCrypto).hello ++ [] })
      (tls13Connect sampleCrypto noConnections { sampleArgs with
        wire := (sampleFraming sampleCrypto 1 [streamOf sampleFront,
          streamOf [(sampleMessages sampleCrypto).finished]]).wire
          (sampleMessages sampleCrypto).hello ++ [] }) :=
  framing_independent sampleCrypto noConnections sampleArgs (sampleMessages sampleCrypto) _ _ [] []
    (sampleFraming_one_sends sampleCrypto_aead) (sampleFraming_two_sends sampleCrypto_aead)
    (contained_of_readsInside sampleCrypto_readsInside _) sampleFraming_one_readable
    sampleFraming_two_readable

/-- The header of the Finished crosses the boundary of two records: the connection
that is made from one record fails. -/
theorem split_finished_fails :
    ¬ ∃ (X : Type) (K : Crypto X), K.aead = gcmAead ∧ ReadsInside K ∧
      ∀ g a m (f f' : Framing) (rest rest' : Wire), Genuine K g a m → f.Sends K g a m →
        f'.Sends K g a m →
        SameOutcome (tls13Connect K g { a with wire := f.wire m.hello ++ rest })
          (tls13Connect K g { a with wire := f'.wire m.hello ++ rest' }) := by
  rintro ⟨X, K, hA, hK, hall⟩
  have hsends : (sampleFraming K 0 [streamOf sampleFront ++ [20, 0],
      [0, 32] ++ sampleVerify K]).Sends K (noConnections (X := X)) sampleArgs
        (sampleMessages K) := by
    apply sampleFraming_sends hA 0
    · rw [streamOf_flight, streamOf, streamOf, List.flatMap_singleton, finished_bytes]
      simp
    · intro c hc
      have hfront := streamOf_sampleFront_length
      have hverify := sampleVerify_length (K := K)
      simp only [List.mem_cons, List.not_mem_nil, or_false] at hc
      rcases hc with rfl | rfl
      · exact ⟨by simp, by rw [List.length_append, hfront]; decide⟩
      · exact ⟨by simp, by rw [List.length_append, hverify]; decide⟩
  have hsame := hall noConnections sampleArgs (sampleMessages K) _ _ [] [] (sample_genuine K)
    (sampleFraming_one_sends hA) hsends
  have hone := (sampleFraming_one_readable.outcome (sampleFraming_one_sends hA)
    (contained_of_readsInside hK _) []).ret
  have hret := hsame.ret
  rw [hone, sample_expected, sample_split hA hK] at hret
  cases hret

end OriaOS.Tls
