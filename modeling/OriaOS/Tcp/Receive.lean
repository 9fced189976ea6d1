import OriaOS.Lib.Reach
import OriaOS.Lib.Seq
import OriaOS.Tcp.Conn

/-!
# The receive side of a connection

A peer has a byte stream and an initial sequence number, and the network
delivers pieces of that stream in any order, any number of times. The history
of a connection records the bytes `net_tcp_recv` has returned and the
acknowledgement numbers sent. As long as every in-order piece finds room in the
ring and a FIN is only taken where the stream received so far ends, the bytes
returned and held are a prefix of the stream and every acknowledged byte is
among them.
-/

namespace OriaOS.Tcp

open OriaOS.Lib

variable {s : Seg} {c' : TcpConn}

/-- The remote side: what it sends, and where its numbering starts. -/
structure Peer where
  stream : Bytes
  isn : UInt32

namespace Peer

/-- The sequence number of the stream byte at offset `k`. -/
def seqAt (p : Peer) (k : Nat) : UInt32 := seqAdd (p.isn + 1) k

/-- The segments a peer may send: a reset, its SYN, a segment without payload,
or any piece of the stream, with FIN only on a piece that ends it. -/
inductive Sends (p : Peer) (s : Seg) : Prop
  | reset (hrst : s.has RST)
  | syn (hseq : s.seq = p.isn) (hdata : s.data = []) (hfin : ¬ s.has FIN)
  | bare (hsyn : ¬ s.has SYN) (hdata : s.data = []) (hfin : ¬ s.has FIN)
  | piece (off : Nat) (hsyn : ¬ s.has SYN) (hoff : off + s.data.length ≤ p.stream.length)
      (hseq : s.seq = p.seqAt off) (hdata : s.data = (p.stream.drop off).take s.data.length)
      (hfin : s.has FIN → off + s.data.length = p.stream.length)

end Peer

/-- Bytes returned and acknowledgement numbers sent since the connection opened. -/
structure RecvHist where
  got : Bytes
  acks : List UInt32

/-- The acknowledgement numbers of the segments that carry one. -/
def acksOf (tx : List TxSeg) : List UInt32 :=
  (tx.filter fun t => t.flags &&& ACK ≠ 0).map TxSeg.ack

/-- The connection takes an event and the history grows by what it shows. -/
def recvStep (s : TcpConn × RecvHist) (e : ConnEv) : TcpConn × RecvHist :=
  let r := e.apply s.1
  (r.1, ⟨s.2.got ++ r.2.got, s.2.acks ++ acksOf r.2.tx⟩)

/-- A connection to the peer that has just been opened, by either side. -/
inductive RecvStart (p : Peer) : TcpConn × RecvHist → Prop
  | active (c : TcpConn) (now : UInt32) (mac : Mac) (ip : Ip) (dstPort srcPort : UInt16) :
      RecvStart p ((openActive c now mac ip dstPort srcPort).1,
        ⟨[], acksOf (openActive c now mac ip dstPort srcPort).2⟩)
  | passive (c : TcpConn) (now : UInt32) (s : Seg) (h : s.seq = p.isn) :
      RecvStart p ((openPassive c now s).1, ⟨[], acksOf (openPassive c now s).2⟩)

/-- Only segments of the peer arrive; nothing else is asked of the events. -/
def fromPeer (p : Peer) (_ : TcpConn × RecvHist) : ConnEv → Prop
  | .rx _ s => p.Sends s
  | _ => True

/-- An in-order piece fits the ring together with the out-of-order segment it
would release. -/
def HasRoom (c : TcpConn) (s : Seg) : Prop :=
  c.rx.count + s.data.length +
    (if c.oooSeq = c.rcvNxt + UInt32.ofNat s.data.length then c.oooBuf.val.length else 0) < rxSize

/-- A FIN is taken where the received stream ends: on a piece that is itself
taken in order, or on one that ends at the next expected byte. -/
def FinInOrder (c : TcpConn) (s : Seg) : Prop :=
  (c.state = .established ∧ s.seq = c.rcvNxt) ∨
    s.seq + UInt32.ofNat s.data.length = c.rcvNxt

/-- The condition on arriving segments under which nothing is lost. -/
def deliverable (p : Peer) (st : TcpConn × RecvHist) : ConnEv → Prop
  | .rx _ s => p.Sends s ∧
      (st.1.state = .established → 0 < s.data.length → s.seq = st.1.rcvNxt → HasRoom st.1 s) ∧
      (st.1.state.reads → s.has FIN → FinInOrder st.1 s)
  | _ => True

/-- The bytes returned are a prefix of the stream, and every stream byte below
a sent acknowledgement has been returned or is in the ring. -/
def RecvCorrect (p : Peer) (s : TcpConn × RecvHist) : Prop :=
  s.2.got <+: p.stream ∧
    ∀ a ∈ s.2.acks, ∀ k, k < p.stream.length → k < (a - (p.isn + 1)).toNat →
      (s.2.got ++ s.1.rx.contents)[k]? = p.stream[k]?

/-- An acknowledgement of at most `d` stream bytes, or of the FIN after all. -/
def Peer.Acked (p : Peer) (d : Nat) (a : UInt32) : Prop :=
  ∃ m, a = p.seqAt m ∧ (m ≤ d ∨ m = p.stream.length + 1 ∧ d = p.stream.length)

/-- The out-of-order slot is empty or holds a piece of the stream. -/
def Peer.Holds (p : Peer) (c : TcpConn) : Prop :=
  c.oooBuf.val ≠ [] → ∃ off, c.oooSeq = p.seqAt off ∧
    off + c.oooBuf.val.length ≤ p.stream.length ∧
    c.oooBuf.val = (p.stream.drop off).take c.oooBuf.val.length

/-- The receive invariant, with `got` the bytes returned so far. -/
structure RecvInv (p : Peer) (got : Bytes) (c : TcpConn) : Prop where
  stored : got ++ c.rx.contents <+: p.stream
  unsynced : c.state = .synSent → got ++ c.rx.contents = []
  next : c.state ≠ .synSent → c.state ≠ .closed →
    p.Acked (got ++ c.rx.contents).length c.rcvNxt
  reading : c.state.reads → c.rcvNxt = p.seqAt (got ++ c.rx.contents).length
  holds : p.Holds c

/-- One step of the receive side: the invariant again, good acknowledgements,
and nothing received is forgotten. -/
structure RecvKeeps (p : Peer) (got got' : Bytes) (c c' : TcpConn) (tx : List TxSeg) : Prop where
  inv : RecvInv p got' c'
  acks : ∀ a ∈ acksOf tx, p.Acked (got' ++ c'.rx.contents).length a
  grows : (got ++ c.rx.contents).length ≤ (got' ++ c'.rx.contents).length

section Lemmas
variable {p : Peer} {got : Bytes} {c : TcpConn}

@[simp] theorem acksOf_nil : acksOf [] = [] := rfl

theorem acksOf_cons_ack {t : TxSeg} (h : t.flags &&& ACK ≠ 0) (ts : List TxSeg) :
    acksOf (t :: ts) = t.ack :: acksOf ts := by
  simp [acksOf, h]

@[simp] theorem acksOf_tcpTx {flags : UInt8} (h : flags &&& ACK ≠ 0) (c : TcpConn)
    (seq ack : UInt32) (data : Bytes) : acksOf [tcpTx c flags seq ack data] = [ack] :=
  acksOf_cons_ack h []

theorem acksOf_syn {flags : UInt8} (h : flags &&& ACK = 0) (c : TcpConn)
    (seq ack : UInt32) (data : Bytes) : acksOf [tcpTx c flags seq ack data] = [] := by
  simp [acksOf, tcpTx, h]

@[simp] theorem acksOf_ackNow (c : TcpConn) : acksOf [ackNow c] = [c.rcvNxt] :=
  acksOf_tcpTx (by decide) c _ _ _

theorem acksOf_append (ts us : List TxSeg) : acksOf (ts ++ us) = acksOf ts ++ acksOf us := by
  simp [acksOf]

theorem RecvInv.length_le (h : RecvInv p got c) :
    (got ++ c.rx.contents).length ≤ p.stream.length := h.stored.length_le

theorem RecvInv.eq_take (h : RecvInv p got c) :
    got ++ c.rx.contents = p.stream.take (got ++ c.rx.contents).length :=
  List.prefix_iff_eq_take.mp h.stored

theorem Peer.Acked.mono {d d' : Nat} {a : UInt32} (h : p.Acked d a) (hd : d ≤ d')
    (hle : d' ≤ p.stream.length) : p.Acked d' a := by
  obtain ⟨m, hm, hcase⟩ := h
  refine ⟨m, hm, ?_⟩
  rcases hcase with hcase | ⟨hcase, hall⟩
  · exact Or.inl (Nat.le_trans hcase hd)
  · exact Or.inr ⟨hcase, Nat.le_antisymm hle (hall ▸ hd)⟩

theorem Peer.acked_self (d : Nat) : p.Acked d (p.seqAt d) := ⟨d, rfl, Or.inl (Nat.le_refl d)⟩

/-- The invariant reads only the ring, the next number, the state and the
out-of-order slot. -/
theorem RecvInv.congr (h : RecvInv p got c) (hrx : c'.rx = c.rx) (hnxt : c'.rcvNxt = c.rcvNxt)
    (hst : c'.state = c.state) (hooo : c'.oooBuf = c.oooBuf) (hseq : c'.oooSeq = c.oooSeq) :
    RecvInv p got c' := by
  constructor
  · rw [hrx]
    exact h.stored
  · rw [hrx, hst]
    exact h.unsynced
  · rw [hrx, hst, hnxt]
    exact h.next
  · rw [hrx, hst, hnxt]
    exact h.reading
  · unfold Peer.Holds
    rw [hooo, hseq]
    exact h.holds

/-- A released slot keeps what the ring holds. -/
theorem RecvInv.released (h : RecvInv p got c) (hrx : c'.rx = c.rx) (hst : c'.state = .closed)
    (hooo : c'.oooBuf = c.oooBuf) (hseq : c'.oooSeq = c.oooSeq) : RecvInv p got c' := by
  constructor
  · rw [hrx]
    exact h.stored
  · simp [hst]
  · simp [hst]
  · simp [hst, TcpState.reads]
  · unfold Peer.Holds
    rw [hooo, hseq]
    exact h.holds

/-- A state that still knows its next number moves to another such state. -/
theorem RecvInv.setState (h : RecvInv p got c) (hrx : c'.rx = c.rx) (hnxt : c'.rcvNxt = c.rcvNxt)
    (hooo : c'.oooBuf = c.oooBuf) (hseq : c'.oooSeq = c.oooSeq) (hsyn : c.state ≠ .synSent)
    (hclosed : c.state ≠ .closed) (hsyn' : c'.state ≠ .synSent)
    (hreads : c'.state.reads → c.state.reads) : RecvInv p got c' := by
  constructor
  · rw [hrx]
    exact h.stored
  · exact fun hst => absurd hst hsyn'
  · intro _ _
    rw [hrx, hnxt]
    exact h.next hsyn hclosed
  · intro hst
    rw [hrx, hnxt]
    exact h.reading (hreads hst)
  · unfold Peer.Holds
    rw [hooo, hseq]
    exact h.holds

/-- Appending the next bytes of the stream to the ring and moving the next
number past them. -/
theorem RecvInv.push (c' : TcpConn) {data : Bytes} (h : RecvInv p got c)
    (hreads : c.state.reads)
    (hdata : data = (p.stream.drop (got ++ c.rx.contents).length).take data.length)
    (hroom : c.rx.count + data.length < rxSize)
    (hrx : c'.rx = c.rx.pushAll data) (hst : c'.state = c.state)
    (hnxt : c'.rcvNxt = seqAdd c.rcvNxt data.length) (hholds : p.Holds c') :
    RecvInv p got c' ∧
      got ++ c'.rx.contents = got ++ c.rx.contents ++ data := by
  have hcontents : got ++ c'.rx.contents = got ++ c.rx.contents ++ data := by
    rw [hrx, Ring.contents_pushAll hroom, List.append_assoc]
  have htake : got ++ c.rx.contents ++ data =
      p.stream.take ((got ++ c.rx.contents).length + data.length) := by
    rw [List.take_add, ← h.eq_take, ← hdata]
  have hlen : (got ++ c'.rx.contents).length =
      (got ++ c.rx.contents).length + data.length := by
    rw [hcontents, List.length_append]
  have hseq : c'.rcvNxt = p.seqAt (got ++ c'.rx.contents).length := by
    rw [hnxt, h.reading hreads, hlen, Peer.seqAt, seqAdd_seqAdd, Peer.seqAt]
  refine ⟨?_, hcontents⟩
  constructor
  · rw [hcontents, htake]
    exact List.take_prefix _ _
  · intro hsyn
    rw [hst] at hsyn
    rw [hsyn] at hreads
    simp [TcpState.reads] at hreads
  · intro _ _
    rw [hseq]
    exact Peer.acked_self _
  · exact fun _ => hseq
  · exact hholds

/-- The slot's segment is appended exactly when it continues the stream. -/
theorem mergeOoo_spec (h : RecvInv p got c) (hreads : c.state.reads)
    (hsmall : p.stream.length + 1 < 2 ^ 32)
    (hroom : c.oooSeq = c.rcvNxt → c.rx.count + c.oooBuf.val.length < rxSize) :
    RecvInv p got (mergeOoo c) ∧ (mergeOoo c).state = c.state ∧
      (got ++ c.rx.contents).length ≤ (got ++ (mergeOoo c).rx.contents).length := by
  unfold mergeOoo
  split
  · next hmerge =>
      have hne : c.oooBuf.val ≠ [] := List.ne_nil_of_length_pos hmerge.1
      obtain ⟨off, hseq, hoff, hdata⟩ := h.holds hne
      have hle := h.length_le
      have heq : off = (got ++ c.rx.contents).length := by
        apply seqAdd_inj (b := p.isn + 1)
        · omega
        · omega
        · exact hseq.symm.trans (hmerge.2.trans (h.reading hreads))
      rw [heq] at hdata
      obtain ⟨hinv, hcontents⟩ := RecvInv.push
        { tcpRxPush c c.oooBuf.val with
          rcvNxt := c.rcvNxt + UInt32.ofNat c.oooBuf.val.length
          oooBuf := .empty } h hreads hdata (hroom hmerge.2) rfl rfl rfl
        (fun hnil => absurd rfl hnil)
      refine ⟨hinv, rfl, ?_⟩
      rw [hcontents]
      exact (List.sublist_append_left _ _).length_le
  · exact ⟨h, rfl, Nat.le_refl _⟩

@[simp] theorem keepOoo_rx (c : TcpConn) (s : Seg) (hlen : s.data.length ≤ txSize) :
    (keepOoo c s hlen).rx = c.rx := by
  unfold keepOoo
  split <;> rfl

@[simp] theorem keepOoo_rcvNxt (c : TcpConn) (s : Seg) (hlen : s.data.length ≤ txSize) :
    (keepOoo c s hlen).rcvNxt = c.rcvNxt := by
  unfold keepOoo
  split <;> rfl

@[simp] theorem keepOoo_state (c : TcpConn) (s : Seg) (hlen : s.data.length ≤ txSize) :
    (keepOoo c s hlen).state = c.state := by
  unfold keepOoo
  split <;> rfl

/-- Keeping a piece of the stream in the slot changes nothing received. -/
theorem RecvInv.keepOoo {off : Nat} (h : RecvInv p got c) (hlen : s.data.length ≤ txSize)
    (hoff : off + s.data.length ≤ p.stream.length) (hseq : s.seq = p.seqAt off)
    (hdata : s.data = (p.stream.drop off).take s.data.length) :
    RecvInv p got (keepOoo c s hlen) := by
  constructor
  · rw [keepOoo_rx]
    exact h.stored
  · rw [keepOoo_rx, keepOoo_state]
    exact h.unsynced
  · rw [keepOoo_rx, keepOoo_state, keepOoo_rcvNxt]
    exact h.next
  · rw [keepOoo_rx, keepOoo_state, keepOoo_rcvNxt]
    exact h.reading
  · unfold Tcp.keepOoo
    split
    · exact fun _ => ⟨off, hseq, hoff, hdata⟩
    · exact h.holds

/-- The payload part keeps the invariant; a piece taken in order is received
as a whole. -/
theorem rxData_spec {off : Nat} (now : UInt32) (h : RecvInv p got c)
    (hst : c.state = .established) (hsmall : p.stream.length + 1 < 2 ^ 32)
    (hoff : off + s.data.length ≤ p.stream.length) (hseq : s.seq = p.seqAt off)
    (hdata : s.data = (p.stream.drop off).take s.data.length)
    (hroom : s.seq = c.rcvNxt → HasRoom c s) :
    RecvKeeps p got got c (rxData c now s).1 (rxData c now s).2 ∧
      (rxData c now s).1.state = .established ∧
      (s.seq = c.rcvNxt →
        off + s.data.length ≤ (got ++ (rxData c now s).1.rx.contents).length) := by
  have hreads : c.state.reads := Or.inl hst
  -- The keepalive fields are outside the receive view.
  have hka : RecvInv p got
      { c with lastRxTick := now, kaProbes := 0, kaNextTick := now + keepaliveIdle } :=
    h.congr rfl rfl rfl rfl rfl
  by_cases heq : s.seq = c.rcvNxt
  · have hpos : off = (got ++ c.rx.contents).length := by
      have hle := h.length_le
      apply seqAdd_inj (b := p.isn + 1)
      · omega
      · omega
      · exact hseq.symm.trans (heq.trans (h.reading hreads))
    have hfit := hroom heq
    unfold HasRoom at hfit
    obtain ⟨hinv, hcontents⟩ := RecvInv.push
      { c with
        rx := c.rx.pushAll s.data
        lastRxTick := now
        kaProbes := 0
        kaNextTick := now + keepaliveIdle
        rcvNxt := c.rcvNxt + UInt32.ofNat s.data.length }
      h hreads (by rw [← hpos]; exact hdata) (by omega) rfl rfl rfl h.holds
    have hlen := congrArg List.length hcontents
    conv_rhs at hlen => rw [List.length_append]
    obtain ⟨hmerged, hmst, hgrow⟩ := mergeOoo_spec hinv (Or.inl hst) hsmall (by
      intro hnext
      have hcount := hlen
      simp only [List.length_append, Ring.length_contents] at hcount
      simp only at hnext
      rw [if_pos hnext] at hfit
      simp only
      omega)
    have hstate := hmst.trans hst
    simp only [rxData, heq, if_true]
    refine ⟨⟨hmerged, ?_, ?_⟩, hstate, fun _ => ?_⟩
    · intro a ha
      rw [acksOf_ackNow, List.mem_singleton] at ha
      rw [ha]
      apply hmerged.next
      · exact fun hsyn => by rw [hstate] at hsyn; cases hsyn
      · exact fun hcl => by rw [hstate] at hcl; cases hcl
    · exact Nat.le_trans (by rw [hlen]; exact Nat.le_add_right _ _) hgrow
    · rw [hpos, ← hlen]
      exact hgrow
  · have hacked := h.next (by rw [hst]; decide) (by rw [hst]; decide)
    simp only [rxData, heq, if_false, false_implies, and_true]
    split
    · next hahead =>
        refine ⟨⟨hka.keepOoo hahead.2 hoff hseq hdata, ?_, ?_⟩, ?_⟩
        · simpa using hacked
        · rw [keepOoo_rx]
        · rw [keepOoo_state]
          exact hst
    · refine ⟨⟨hka, ?_, Nat.le_refl _⟩, hst⟩
      simpa using hacked

/-- The FIN part, taken where the stream ends. -/
theorem rxFin_spec (h : RecvInv p got c) (hreads : c.state.reads)
    (hend : (got ++ c.rx.contents).length = p.stream.length) :
    RecvKeeps p got got c (rxFin c).1 (rxFin c).2 := by
  have hnext : c.rcvNxt + 1 = p.seqAt (p.stream.length + 1) := by
    rw [h.reading hreads, hend]
    exact seqAdd_succ _ _
  have hacked : p.Acked (got ++ c.rx.contents).length (c.rcvNxt + 1) :=
    ⟨_, hnext, Or.inr ⟨rfl, hend⟩⟩
  have hst : (rxFin c).1.state = .closeWait ∨ (rxFin c).1.state = .timeWait := by
    simp only [rxFin]
    split
    · exact Or.inl rfl
    · exact Or.inr rfl
  constructor
  · constructor
    · exact h.stored
    · intro hsyn
      rcases hst with hst | hst <;> rw [hst] at hsyn <;> cases hsyn
    · exact fun _ _ => hacked
    · intro hr
      rcases hst with hst | hst <;> simp [TcpState.reads, hst] at hr
    · exact h.holds
  · intro a ha
    simp only [rxFin, acksOf_ackNow, List.mem_singleton] at ha
    rw [ha]
    exact hacked
  · exact Nat.le_refl _

theorem RecvKeeps.refl (h : RecvInv p got c) : RecvKeeps p got got c c [] :=
  ⟨h, by simp, Nat.le_refl _⟩

theorem RecvKeeps.trans {got' got'' : Bytes} {c'' : TcpConn} {tx tx' : List TxSeg}
    (h : RecvKeeps p got got' c c' tx) (h' : RecvKeeps p got' got'' c' c'' tx') :
    RecvKeeps p got got'' c c'' (tx ++ tx') := by
  refine ⟨h'.inv, ?_, Nat.le_trans h.grows h'.grows⟩
  intro a ha
  rw [acksOf_append, List.mem_append] at ha
  rcases ha with ha | ha
  · exact (h.acks a ha).mono h'.grows h'.inv.length_le
  · exact h'.acks a ha

/-- A segment that carries payload or FIN is a piece of the stream. -/
def Peer.Piece (p : Peer) (s : Seg) (off : Nat) : Prop :=
  off + s.data.length ≤ p.stream.length ∧ s.seq = p.seqAt off ∧
    s.data = (p.stream.drop off).take s.data.length ∧
    (s.has FIN → off + s.data.length = p.stream.length)

theorem Peer.Sends.piece_of (h : p.Sends s) (hrst : ¬ s.has RST)
    (hneed : 0 < s.data.length ∨ s.has FIN) : ∃ off, p.Piece s off := by
  cases h with
  | reset h => exact absurd h hrst
  | syn _ hdata hfin => simp [hdata, hfin] at hneed
  | bare _ hdata hfin => simp [hdata, hfin] at hneed
  | piece off _ hoff hseq hdata hfin => exact ⟨off, hoff, hseq, hdata, hfin⟩

/-- Payload and FIN of one segment on a connection that reads them. -/
theorem rxOpen_data_spec (now : UInt32) (h : RecvInv p got c) (hreads : c.state.reads)
    (hsmall : p.stream.length + 1 < 2 ^ 32)
    (hpiece : 0 < s.data.length ∨ s.has FIN → ∃ off, p.Piece s off)
    (hroom : c.state = .established → 0 < s.data.length → s.seq = c.rcvNxt → HasRoom c s)
    (hfin : s.has FIN → FinInOrder c s) :
    let r := if 0 < s.data.length ∧ c.state = .established then rxData c now s else (c, [])
    RecvKeeps p got got c r.1 r.2 ∧ r.1.state.reads ∧
      (s.has FIN → (got ++ r.1.rx.contents).length = p.stream.length) := by
  have hle := h.length_le
  -- A FIN on a piece that ends at the next expected byte needs nothing new.
  have hended : ∀ off, p.Piece s off → s.has FIN →
      s.seq + UInt32.ofNat s.data.length = c.rcvNxt →
      p.stream.length ≤ (got ++ c.rx.contents).length := by
    intro off ⟨hoff, hseq, _, hlast⟩ hF heq
    apply Nat.le_of_eq
    apply seqAdd_inj (b := p.isn + 1)
    · omega
    · omega
    · rw [← hlast hF, ← seqAdd_seqAdd]
      calc
        seqAdd (seqAdd (p.isn + 1) off) s.data.length = c.rcvNxt := by
          rw [hseq] at heq
          exact heq
        _ = seqAdd (p.isn + 1) _ := h.reading hreads
  by_cases hread : 0 < s.data.length ∧ c.state = .established
  · obtain ⟨off, hp⟩ := hpiece (Or.inl hread.1)
    obtain ⟨hoff, hseq, hdata, hlast⟩ := hp
    obtain ⟨hkeeps, hst, htaken⟩ := rxData_spec now h hread.2 hsmall hoff hseq hdata
      (hroom hread.2 hread.1)
    simp only [if_pos hread]
    refine ⟨hkeeps, Or.inl hst, fun hF => Nat.le_antisymm hkeeps.inv.length_le ?_⟩
    rcases hfin hF with ⟨_, heq⟩ | heq
    · rw [← hlast hF]
      exact htaken heq
    · exact Nat.le_trans (hended off ⟨hoff, hseq, hdata, hlast⟩ hF heq) hkeeps.grows
  · simp only [if_neg hread]
    refine ⟨RecvKeeps.refl h, hreads, fun hF => Nat.le_antisymm hle ?_⟩
    obtain ⟨off, hp⟩ := hpiece (Or.inr hF)
    apply hended off hp hF
    rcases hfin hF with ⟨hst, heq⟩ | heq
    · have hnil : s.data.length = 0 := by
        by_contra hne
        exact hread ⟨Nat.pos_of_ne_zero hne, hst⟩
      rw [hnil, heq]
      exact seqAdd_zero _
    · exact heq

theorem rxOpen_spec (now : UInt32) (h : RecvInv p got c) (hreads : c.state.reads)
    (hsmall : p.stream.length + 1 < 2 ^ 32)
    (hpiece : 0 < s.data.length ∨ s.has FIN → ∃ off, p.Piece s off)
    (hroom : c.state = .established → 0 < s.data.length → s.seq = c.rcvNxt → HasRoom c s)
    (hfin : s.has FIN → FinInOrder c s) :
    RecvKeeps p got got c (rxOpen c now s).1 (rxOpen c now s).2 := by
  -- The acknowledgement part leaves the receive view as it is.
  obtain ⟨buf, nxt, st, heq, hst⟩ :
      ∃ buf nxt st, (if s.has ACK then rxAck c s.ack else c) =
        { c with txBuf := buf, sndNxt := nxt, state := st } ∧
          (st = c.state ∨ c.state = .finWait1 ∧ st = .finWait2) := by
    split
    · exact rxAck_frame c s.ack
    · exact ⟨_, _, _, rfl, Or.inl rfl⟩
  have hreads₁ : st.reads := by
    rcases hst with rfl | ⟨_, rfl⟩
    · exact hreads
    · exact Or.inr (Or.inr rfl)
  have hest : st = .established → c.state = .established := by
    intro he
    rcases hst with rfl | ⟨_, rfl⟩
    · exact he
    · cases he
  have hest' : c.state = .established → st = .established := by
    intro he
    rcases hst with rfl | ⟨hf, _⟩
    · exact he
    · rw [he] at hf
      cases hf
  have hne : ∀ st' : TcpState, st'.reads → st' ≠ .synSent ∧ st' ≠ .closed := by
    rintro st' (rfl | rfl | rfl) <;> exact ⟨by decide, by decide⟩
  have h₁ : RecvInv p got { c with txBuf := buf, sndNxt := nxt, state := st } :=
    h.setState rfl rfl rfl rfl (hne _ hreads).1 (hne _ hreads).2 (hne _ hreads₁).1
      (fun _ => hreads)
  obtain ⟨hkeeps, hreads₂, hend⟩ := rxOpen_data_spec now h₁ hreads₁ hsmall hpiece
    (fun he => hroom (hest he)) (fun hF => (hfin hF).imp_left fun hh => ⟨hest' hh.1, hh.2⟩)
  simp only at hkeeps hreads₂ hend
  unfold rxOpen
  simp only [heq]
  by_cases hF : s.has FIN
  · simp only [if_pos hF]
    exact RecvKeeps.trans (c := c) ⟨hkeeps.inv, hkeeps.acks, hkeeps.grows⟩
      (rxFin_spec hkeeps.inv hreads₂ (hend hF))
  · simp only [if_neg hF, List.append_nil]
    exact ⟨hkeeps.inv, hkeeps.acks, hkeeps.grows⟩

theorem rxSynSent_spec (h : RecvInv p got c) (hst : c.state = .synSent) (hsends : p.Sends s)
    (hrst : ¬ s.has RST) : RecvKeeps p got got c (rxSynSent c s).1 (rxSynSent c s).2 := by
  unfold rxSynSent
  split
  · next hflags =>
      have hsyn : s.has SYN := Seg.has_of_and_eq hflags (by decide)
      have hseq : s.seq = p.isn := by
        cases hsends with
        | reset h => exact absurd h hrst
        | syn hseq _ _ => exact hseq
        | bare h _ _ => exact absurd hsyn h
        | piece _ h _ _ _ _ => exact absurd hsyn h
      have hempty := h.unsynced hst
      have hnext : s.seq + 1 = p.seqAt (got ++ c.rx.contents).length := by
        rw [hempty, hseq, Peer.seqAt, List.length_nil, seqAdd_zero]
      refine ⟨⟨h.stored, (fun hsyn => nomatch hsyn), fun _ _ => ?_, fun _ => hnext, h.holds⟩, ?_,
        Nat.le_refl _⟩
      · change p.Acked _ (s.seq + 1)
        rw [hnext]
        exact Peer.acked_self _
      · intro a ha
        rw [acksOf_ackNow, List.mem_singleton] at ha
        rw [ha]
        change p.Acked _ (s.seq + 1)
        rw [hnext]
        exact Peer.acked_self _
  · exact RecvKeeps.refl h

theorem rxConn_spec (now : UInt32) (h : RecvInv p got c) (hsmall : p.stream.length + 1 < 2 ^ 32)
    (hsends : p.Sends s)
    (hroom : c.state = .established → 0 < s.data.length → s.seq = c.rcvNxt → HasRoom c s)
    (hfin : c.state.reads → s.has FIN → FinInOrder c s) :
    RecvKeeps p got got c (rxConn c now s).1 (rxConn c now s).2 := by
  unfold rxConn
  by_cases hrst : s.has RST
  · simp only [if_pos hrst]
    exact ⟨h.released rfl rfl rfl rfl, by simp, Nat.le_refl _⟩
  · simp only [if_neg hrst]
    have hopen : c.state.reads → RecvKeeps p got got c (rxOpen c now s).1 (rxOpen c now s).2 :=
      fun hreads => rxOpen_spec now h hreads hsmall (hsends.piece_of hrst) hroom (hfin hreads)
    cases hst : c.state with
    | synSent => exact rxSynSent_spec h hst hsends hrst
    | established => exact hopen (Or.inl hst)
    | finWait1 => exact hopen (Or.inr (Or.inl hst))
    | finWait2 => exact hopen (Or.inr (Or.inr hst))
    | lastAck =>
        simp only
        split
        · exact ⟨h.released rfl rfl rfl rfl, by simp, Nat.le_refl _⟩
        · exact RecvKeeps.refl h
    | closed => exact RecvKeeps.refl h
    | closeWait => exact RecvKeeps.refl h
    | timeWait => exact RecvKeeps.refl h

theorem netTcpSend_spec (now : UInt32) (data : Bytes) (h : RecvInv p got c) :
    RecvKeeps p got got c (netTcpSend c now data).1 (netTcpSend c now data).2.1 := by
  unfold netTcpSend
  split
  · exact RecvKeeps.refl h
  · next hopen =>
      have hst : c.state = .established := by
        by_contra hne
        exact hopen (Or.inr hne)
      refine ⟨h.congr rfl rfl rfl rfl rfl, ?_, Nat.le_refl _⟩
      intro a ha
      simp only at ha
      rw [acksOf_tcpTx (by decide), List.mem_singleton] at ha
      rw [ha]
      exact h.next (by rw [hst]; decide) (by rw [hst]; decide)

theorem recvDrain_spec (maxlen : Nat) (h : RecvInv p got c) :
    RecvKeeps p got (got ++ (recvDrain c maxlen).2) c (recvDrain c maxlen).1 [] := by
  obtain ⟨hread, hleft⟩ := Ring.take_spec c.rx maxlen
  have hsame : got ++ (recvDrain c maxlen).2 ++ (recvDrain c maxlen).1.rx.contents =
      got ++ c.rx.contents := by
    simp only [recvDrain]
    rw [hread, hleft, List.append_assoc, List.take_append_drop]
  refine ⟨?_, by simp, by rw [hsame]⟩
  constructor
  · rw [hsame]
    exact h.stored
  · rw [hsame]
    exact h.unsynced
  · rw [hsame]
    exact h.next
  · rw [hsame]
    exact h.reading
  · exact h.holds

theorem closeBegin_spec (h : RecvInv p got c) :
    RecvKeeps p got got c (closeBegin c).1 (closeBegin c).2 := by
  unfold closeBegin
  split
  · exact RecvKeeps.refl h
  · split
    · next hst =>
        have hne : c.state ≠ .synSent ∧ c.state ≠ .closed := by
          rcases hst with hst | hst <;> rw [hst] <;> exact ⟨by decide, by decide⟩
        refine ⟨h.setState rfl rfl rfl rfl hne.1 hne.2 ?_ ?_, ?_, Nat.le_refl _⟩
        · simp only
          split <;> decide
        · simp only
          split
          · next he => exact fun _ => Or.inl he
          · simp [TcpState.reads]
        · intro a ha
          rw [acksOf_tcpTx (by decide), List.mem_singleton] at ha
          rw [ha]
          exact h.next hne.1 hne.2
    · exact ⟨h.released rfl rfl rfl rfl, by simp, Nat.le_refl _⟩

theorem giveUp_spec (h : RecvInv p got c) (hst : c.state = .established) :
    RecvKeeps p got got c (giveUp c).1 (giveUp c).2 := by
  refine ⟨h.released rfl rfl rfl rfl, ?_, Nat.le_refl _⟩
  intro a ha
  simp only [giveUp] at ha
  rw [acksOf_tcpTx (by decide), List.mem_singleton] at ha
  rw [ha]
  exact h.next (by rw [hst]; decide) (by rw [hst]; decide)

theorem tickKeepalive_spec (now : UInt32) (h : RecvInv p got c) (hst : c.state = .established) :
    RecvKeeps p got got c (tickKeepalive c now).1 (tickKeepalive c now).2 := by
  unfold tickKeepalive
  split
  · split
    · exact giveUp_spec h hst
    · refine ⟨h.congr rfl rfl rfl rfl rfl, ?_, Nat.le_refl _⟩
      intro a ha
      rw [acksOf_tcpTx (by decide), List.mem_singleton] at ha
      rw [ha]
      exact h.next (by rw [hst]; decide) (by rw [hst]; decide)
  · exact RecvKeeps.refl h

theorem tickConn_spec (now : UInt32) (h : RecvInv p got c) :
    RecvKeeps p got got c (tickConn c now).1 (tickConn c now).2 := by
  unfold tickConn
  split
  · exact RecvKeeps.refl h
  · next hopen =>
      have hst : c.state = .established := by
        by_contra hne
        exact hopen (Or.inr hne)
      split
      · split
        · exact giveUp_spec h hst
        · have hresend : RecvKeeps p got got c
              { c with retransTick := now, retransCount := c.retransCount + 1 }
              [tcpTx c (PSH ||| ACK) c.txSeq c.rcvNxt c.txBuf.val] := by
            refine ⟨h.congr rfl rfl rfl rfl rfl, ?_, Nat.le_refl _⟩
            intro a ha
            rw [acksOf_tcpTx (by decide), List.mem_singleton] at ha
            rw [ha]
            exact h.next (by rw [hst]; decide) (by rw [hst]; decide)
          exact hresend.trans (tickKeepalive_spec now hresend.inv hst)
      · exact tickKeepalive_spec now h hst

/-- Every event with deliverable segments keeps the receive invariant. -/
theorem apply_recvKeeps {acks : List UInt32} {e : ConnEv} (h : RecvInv p got c)
    (hsmall : p.stream.length + 1 < 2 ^ 32) (hg : deliverable p (c, ⟨got, acks⟩) e) :
    RecvKeeps p got (got ++ (e.apply c).2.got) c (e.apply c).1 (e.apply c).2.tx := by
  cases e with
  | rx now s =>
      simp only [ConnEv.apply]
      split
      · simpa using RecvKeeps.refl h
      · simpa using rxConn_spec now h hsmall hg.1 hg.2.1 hg.2.2
  | send now data => simpa [ConnEv.apply] using netTcpSend_spec now data h
  | recv maxlen => exact recvDrain_spec maxlen h
  | close => simpa [ConnEv.apply] using closeBegin_spec h
  | release =>
      simp only [ConnEv.apply, List.append_nil]
      exact ⟨h.released rfl rfl rfl rfl, by simp, Nat.le_refl _⟩
  | tick now => simpa [ConnEv.apply] using tickConn_spec now h

/-- The invariant of a connection together with its history. -/
def RecvSafe (p : Peer) (s : TcpConn × RecvHist) : Prop :=
  RecvInv p s.2.got s.1 ∧ ∀ a ∈ s.2.acks, p.Acked (s.2.got ++ s.1.rx.contents).length a

theorem recvSafe_start {s : TcpConn × RecvHist} (h : RecvStart p s) : RecvSafe p s := by
  cases h with
  | active c now mac ip dstPort srcPort =>
      have hempty : (openActive c now mac ip dstPort srcPort).1.rx.contents = [] :=
        Ring.contents_eq_nil rfl
      refine ⟨⟨?_, fun _ => ?_, ?_, ?_, fun hne => absurd rfl hne⟩, ?_⟩
      · rw [hempty]
        exact List.nil_prefix
      · rw [hempty]
        rfl
      · exact fun hne => absurd rfl hne
      · intro hr
        simp [TcpState.reads, openActive] at hr
      · intro a ha
        simp only [openActive] at ha
        rw [acksOf_syn (by decide)] at ha
        cases ha
  | passive c now s hseq =>
      have hempty : (openPassive c now s).1.rx.contents = [] := Ring.contents_eq_nil rfl
      have hnext : (openPassive c now s).1.rcvNxt = p.seqAt 0 := by
        rw [Peer.seqAt, seqAdd_zero, ← hseq]
        rfl
      refine ⟨⟨?_, (fun hsyn => nomatch hsyn), ?_, fun _ => ?_, fun hne => absurd rfl hne⟩, ?_⟩
      · rw [hempty]
        exact List.nil_prefix
      · intro _ _
        rw [hempty, hnext]
        exact Peer.acked_self _
      · rw [hempty, hnext]
        rfl
      · intro a ha
        simp only [openPassive] at ha
        rw [acksOf_tcpTx (by decide), List.mem_singleton] at ha
        rw [ha, hempty]
        exact ⟨0, hnext, Or.inl (Nat.le_refl _)⟩

theorem recvSafe_step {s : TcpConn × RecvHist} {e : ConnEv}
    (hsmall : p.stream.length + 1 < 2 ^ 32) (h : RecvSafe p s) (hg : deliverable p s e) :
    RecvSafe p (recvStep s e) := by
  obtain ⟨c, got, acks⟩ := s
  have hkeeps := apply_recvKeeps h.1 hsmall hg
  refine ⟨hkeeps.inv, ?_⟩
  intro a ha
  simp only [recvStep, List.mem_append] at ha
  rcases ha with ha | ha
  · exact (h.2 a ha).mono hkeeps.grows hkeeps.inv.length_le
  · exact hkeeps.acks a ha

theorem RecvSafe.correct {s : TcpConn × RecvHist} (hsmall : p.stream.length + 1 < 2 ^ 32)
    (h : RecvSafe p s) : RecvCorrect p s := by
  refine ⟨(List.prefix_append _ _).trans h.1.stored, ?_⟩
  intro a ha k hk hbelow
  obtain ⟨m, hm, hcase⟩ := h.2 a ha
  have hle := h.1.length_le
  have hdist : (a - (p.isn + 1)).toNat = m := by
    rw [hm]
    apply seqAdd_sub
    omega
  have hkd : k < (s.2.got ++ s.1.rx.contents).length := by omega
  obtain ⟨rest, hrest⟩ := h.1.stored
  rw [← hrest, List.getElem?_append_left hkd]

end Lemmas

/-- In every run whose in-order pieces find room in the ring and whose FINs are
taken where the received stream ends, for a stream that fits the sequence
space, the bytes returned are a prefix of the peer's stream and every
acknowledged byte has been returned or is held in the ring. -/
theorem recv_correct (p : Peer) (hsmall : p.stream.length + 1 < 2 ^ 32)
    (s : TcpConn × RecvHist) (r : Reach (RecvStart p) (deliverable p) recvStep s) :
    RecvCorrect p s := by
  apply RecvSafe.correct hsmall
  exact Reach.invariant (P := RecvSafe p) (fun _ h => recvSafe_start h) 
    (fun _ _ h hg => recvSafe_step hsmall h hg) r

/-- A segment from the peer at 10.0.2.2, port 5000, to port 80. -/
def peerSeg (seq ack : UInt32) (flags : UInt8) (data : Bytes) (h : data.length ≤ 65535) : Seg :=
  { Seg.bare 5000 80 ack flags with seq := seq, data := data, length_le := h }

/-- A connection accepted from a peer that starts numbering at zero. -/
def acceptedConn : TcpConn :=
  (openPassive .zero 0 (Seg.bare 5000 80 0 SYN)).1

theorem acceptedConn_start (stream : Bytes) :
    RecvStart ⟨stream, 0⟩ (acceptedConn, ⟨[], acksOf
      (openPassive .zero 0 (peerSeg 0 0 SYN [] (by decide))).2⟩) :=
  RecvStart.passive .zero 0 (peerSeg 0 0 SYN [] (by decide)) rfl

/-- Two bytes arrive in order on an accepted connection. -/
theorem recv_correct_two_bytes :
    RecvCorrect ⟨[1, 2], 0⟩ (recvStep (acceptedConn, ⟨[], acksOf
      (openPassive .zero 0 (peerSeg 0 0 SYN [] (by decide))).2⟩)
      (.rx 0 (peerSeg 1 0 ACK [1, 2] (by decide)))) := by
  apply recv_correct ⟨[1, 2], 0⟩ (by decide)
  apply Reach.next _ (Reach.start (acceptedConn_start [1, 2]))
  refine ⟨.piece 0 (by decide) (by decide) (by decide) (by decide) ?_, ?_, ?_⟩
  · exact fun hfin => absurd hfin (by decide)
  · intro _ _ _
    show _ < _
    decide
  · exact fun _ hfin => absurd hfin (by decide)

/-- The peer sends two bytes and then a FIN; the FIN arrives first and is
acknowledged as the byte that is still missing. -/
theorem fin_before_data_acks_missing_byte :
    ¬ ∀ p s, Reach (RecvStart p) (fromPeer p) recvStep s → RecvCorrect p s := by
  intro hall
  have hreach : Reach (RecvStart ⟨[1, 2], 0⟩) (fromPeer ⟨[1, 2], 0⟩) recvStep
      (recvStep (acceptedConn, ⟨[], acksOf
        (openPassive .zero 0 (peerSeg 0 0 SYN [] (by decide))).2⟩)
        (.rx 0 (peerSeg 3 0 (FIN ||| ACK) [] (by decide)))) := by
    apply Reach.next _ (Reach.start (acceptedConn_start [1, 2]))
    exact .piece 2 (by decide) (by decide) (by decide) (by decide) (fun _ => rfl)
  have hbad := (hall _ _ hreach).2 2 (by decide) 0 (by decide) (by decide)
  exact absurd hbad (by decide)

end OriaOS.Tcp
