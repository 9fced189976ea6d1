import OriaOS.Lib.Reach
import OriaOS.Lib.Seq
import OriaOS.Tcp.Conn

/-!
# The send side of a connection

The history of a connection records the payload `net_tcp_send` has accepted,
whether a FIN was sent, and every payload byte transmitted, with its sequence
number and its index in the accepted payload. `snd_nxt` is meant to count the
SYN, the accepted payload and the FIN. The acknowledgement handler assigns it
as well, so this holds in the runs where every processed acknowledgement is the
current one, on connections this side opened.
-/

namespace OriaOS.Tcp

open OriaOS.Lib

/-- A payload byte on the wire: its sequence number, its index in the accepted
payload and its value. -/
structure SentByte where
  seq : UInt32
  index : Nat
  value : UInt8

structure SendHist where
  iss : UInt32
  accepted : Bytes
  finSent : Bool
  prev : UInt32
  txPos : Nat
  sent : List SentByte

/-- The bytes of a segment whose first one has index `base`. -/
def sentBytes (base : Nat) (t : TxSeg) : List SentByte :=
  t.data.mapIdx fun j b => ⟨seqAdd t.seq j, base + j, b⟩

/-- The sequence number of the SYN among the segments of an opening. -/
def synSeq (tx : List TxSeg) : UInt32 :=
  ((tx.filter fun t => t.flags &&& SYN ≠ 0).map TxSeg.seq).headD 0

/-- A FIN is among the segments. -/
def hasFin (tx : List TxSeg) : Bool := tx.any fun t => t.flags &&& FIN ≠ 0

theorem hasFin_tcpTx (c : TcpConn) (flags : UInt8) (seq ack : UInt32) (data : Bytes)
    (ts : List TxSeg) :
    hasFin (tcpTx c flags seq ack data :: ts) = (decide (flags &&& FIN ≠ 0) || hasFin ts) := rfl

theorem synSeq_tcpTx {flags : UInt8} (h : flags &&& SYN ≠ 0) (c : TcpConn) (seq ack : UInt32)
    (data : Bytes) : synSeq [tcpTx c flags seq ack data] = seq := by
  simp [synSeq, tcpTx, h]

/-- The index of the first payload byte an event transmits: a send transmits
the bytes it accepts, everything else what the retransmit buffer holds. -/
def firstIndex (h : SendHist) : ConnEv → Nat
  | .send _ _ => h.accepted.length
  | _ => h.txPos

/-- The connection takes an event and the history grows by what it shows.
`prev` keeps `snd_nxt` from before the event, and a send that went through
refills the retransmit buffer. -/
def sendStep (s : TcpConn × SendHist) (e : ConnEv) : TcpConn × SendHist :=
  let r := e.apply s.1
  (r.1, { s.2 with
    accepted := s.2.accepted ++ r.2.accepted
    finSent := s.2.finSent || hasFin r.2.tx
    prev := s.1.sndNxt
    txPos := if r.2.accepted = [] then s.2.txPos else firstIndex s.2 e
    sent := s.2.sent ++ r.2.tx.flatMap (sentBytes (firstIndex s.2 e)) })

/-- The history of a connection that has just sent its SYN. -/
def SendHist.opened (r : TcpConn × List TxSeg) : SendHist where
  iss := synSeq r.2
  accepted := []
  finSent := false
  prev := r.1.sndNxt
  txPos := 0
  sent := []

/-- A connection opened by `net_tcp_connect`. -/
inductive ConnectStart : TcpConn × SendHist → Prop
  | mk (c : TcpConn) (now : UInt32) (mac : Mac) (ip : Ip) (dstPort srcPort : UInt16) :
      ConnectStart ((openActive c now mac ip dstPort srcPort).1,
        .opened (openActive c now mac ip dstPort srcPort))

/-- A connection opened by either side. -/
inductive SendStart : TcpConn × SendHist → Prop
  | connect {s : TcpConn × SendHist} (h : ConnectStart s) : SendStart s
  | listen (c : TcpConn) (now : UInt32) (s : Seg) :
      SendStart ((openPassive c now s).1, .opened (openPassive c now s))

/-- The number of sequence numbers used so far after the SYN. -/
def SendHist.used (h : SendHist) : Nat := h.accepted.length + h.finSent.toNat

/-- The sequence numbers a correct peer may have acknowledged. -/
def peerAcks (st : TcpConn × SendHist) : ConnEv → Prop
  | .rx _ s => s.has ACK → ∃ k, k ≤ st.2.used ∧ s.ack = seqAdd (st.2.iss + 1) k
  | _ => True

/-- `tcp_rx_process` uses the acknowledgement number of the segment: SYN_SENT
waits for a SYN+ACK, the open states take any ACK, and a reset is not read. -/
def ReadsAck (c : TcpConn) (s : Seg) : Prop :=
  ¬ s.has RST ∧
    (c.state = .synSent ∧ s.flags &&& (SYN ||| ACK) = SYN ||| ACK ∨
      c.state.reads ∧ s.has ACK)

/-- Every acknowledgement number that is used is the current one, and the
accepted payload stays within the sequence space. -/
def currentAcks (st : TcpConn × SendHist) : ConnEv → Prop
  | .rx _ s => ReadsAck st.1 s → s.ack = st.1.sndNxt
  | .send _ data => st.2.accepted.length + (data.take txSize).length ≤ 2 ^ 32
  | _ => True

/-- `snd_nxt` counts the SYN, the accepted payload and the FIN, the last event
did not move it backwards, and no sequence number has carried two payload
bytes. -/
structure SendCorrect (s : TcpConn × SendHist) : Prop where
  counts : s.1.sndNxt = seqAdd (s.2.iss + 1) s.2.used
  forward : seqGe s.1.sndNxt s.2.prev
  faithful : ∀ x ∈ s.2.sent, s.2.accepted[x.index]? = some x.value
  unique : ∀ x ∈ s.2.sent, ∀ y ∈ s.2.sent, x.seq = y.seq → x.index = y.index

/-- The states before this side's FIN. -/
def TcpState.beforeFin (st : TcpState) : Prop :=
  st = .synSent ∨ st = .established ∨ st = .closeWait

/-- An event that sends no payload and no FIN and leaves `snd_nxt` alone. -/
structure Quiet (c c' : TcpConn) (tx : List TxSeg) : Prop where
  sndNxt : c'.sndNxt = c.sndNxt
  txSeq : c'.txSeq = c.txSeq
  txBuf : c'.txBuf = c.txBuf ∨ c'.txBuf.val = []
  state : c'.state.beforeFin → c.state.beforeFin
  tx : ∀ t ∈ tx, t.data = [] ∧ t.flags &&& FIN = 0

section Quiet
variable {c : TcpConn}

theorem Quiet.refl (c : TcpConn) : Quiet c c [] := ⟨rfl, rfl, Or.inl rfl, id, by simp⟩

theorem Quiet.released {c' : TcpConn} (hnxt : c'.sndNxt = c.sndNxt) (hseq : c'.txSeq = c.txSeq)
    (hbuf : c'.txBuf = c.txBuf) (hst : c'.state = .closed) : Quiet c c' [] :=
  ⟨hnxt, hseq, Or.inl hbuf, by simp [hst, TcpState.beforeFin], by simp⟩

theorem Quiet.trans {c' c'' : TcpConn} {tx tx' : List TxSeg} (h : Quiet c c' tx)
    (h' : Quiet c' c'' tx') : Quiet c c'' (tx ++ tx') := by
  refine ⟨h'.sndNxt.trans h.sndNxt, h'.txSeq.trans h.txSeq, ?_, fun hst => h.state (h'.state hst),
    ?_⟩
  · rcases h'.txBuf with hb | hb
    · rw [hb]
      exact h.txBuf
    · exact Or.inr hb
  · intro t ht
    rcases List.mem_append.mp ht with ht | ht
    · exact h.tx t ht
    · exact h'.tx t ht

theorem ackNow_quiet (c : TcpConn) : ∀ t ∈ [ackNow c], t.data = [] ∧ t.flags &&& FIN = 0 := by
  intro t ht
  rw [List.mem_singleton] at ht
  subst ht
  exact ⟨rfl, by show ACK &&& FIN = 0; decide⟩

theorem rxData_quiet (c : TcpConn) (now : UInt32) (s : Seg) :
    Quiet c (rxData c now s).1 (rxData c now s).2 := by
  obtain ⟨hsame, c', htx⟩ := rxData_sameTx c now s
  refine ⟨hsame.sndNxt, hsame.txSeq, Or.inl hsame.txBuf, by rw [hsame.state]; exact id, ?_⟩
  rw [htx]
  exact ackNow_quiet c'

theorem rxFin_quiet (c : TcpConn) : Quiet c (rxFin c).1 (rxFin c).2 := by
  refine ⟨rfl, rfl, Or.inl rfl, ?_, ackNow_quiet _⟩
  intro hbefore
  by_cases he : c.state = .established
  · exact Or.inr (Or.inl he)
  · simp [rxFin, he, TcpState.beforeFin] at hbefore

/-- An acknowledgement of exactly `snd_nxt` leaves it in place. -/
theorem rxAck_quiet {a : UInt32} (h : a = c.sndNxt) : Quiet c (rxAck c a) [] := by
  have hbuf : Quiet c (ackTxBuf c a) [] ∧ (ackTxBuf c a).sndNxt = c.sndNxt := by
    unfold ackTxBuf
    split
    · exact ⟨⟨rfl, rfl, Or.inr rfl, id, by simp⟩, rfl⟩
    · exact ⟨Quiet.refl c, rfl⟩
  have hnxt : Quiet (ackTxBuf c a) (ackSndNxt (ackTxBuf c a) a) [] := by
    unfold ackSndNxt
    split
    · exact ⟨rfl, rfl, Or.inl rfl, by simp [TcpState.beforeFin], by simp⟩
    · exact ⟨h.trans hbuf.2.symm, rfl, Or.inl rfl, id, by simp⟩
  exact hbuf.1.trans hnxt

theorem rxOpen_quiet {s : Seg} (now : UInt32) (h : s.has ACK → s.ack = c.sndNxt) :
    Quiet c (rxOpen c now s).1 (rxOpen c now s).2 := by
  have h₁ : Quiet c (if s.has ACK then rxAck c s.ack else c) [] := by
    split
    · next hack => exact rxAck_quiet (h hack)
    · exact Quiet.refl c
  unfold rxOpen
  generalize (if s.has ACK then rxAck c s.ack else c) = c₁ at h₁ ⊢
  have h₂ : ∀ r : TcpConn × List TxSeg, r = rxData c₁ now s ∨ r = (c₁, []) → Quiet c r.1 r.2 := by
    rintro r (rfl | rfl)
    · exact h₁.trans (rxData_quiet c₁ now s)
    · exact h₁
  have h₂' := h₂ _ (ite_eq_or_eq (0 < s.data.length ∧ c₁.state = .established)
    (rxData c₁ now s) (c₁, []))
  simp only
  generalize (if 0 < s.data.length ∧ c₁.state = .established then rxData c₁ now s
    else (c₁, [])) = r₂ at h₂' ⊢
  by_cases hF : s.has FIN
  · simp only [if_pos hF]
    exact h₂'.trans (rxFin_quiet r₂.1)
  · simp only [if_neg hF, List.append_nil]
    exact h₂'

theorem rxSynSent_quiet {s : Seg} (hst : c.state = .synSent)
    (h : s.flags &&& (SYN ||| ACK) = SYN ||| ACK → s.ack = c.sndNxt) :
    Quiet c (rxSynSent c s).1 (rxSynSent c s).2 := by
  unfold rxSynSent
  split
  · next hflags => exact ⟨h hflags, rfl, Or.inl rfl, fun _ => Or.inl hst, ackNow_quiet _⟩
  · exact Quiet.refl c

/-- A segment whose acknowledgement is current is quiet in every state. -/
theorem rxConn_quiet {s : Seg} (now : UInt32) (h : ReadsAck c s → s.ack = c.sndNxt) :
    Quiet c (rxConn c now s).1 (rxConn c now s).2 := by
  unfold rxConn
  by_cases hrst : s.has RST
  · simp only [if_pos hrst]
    exact Quiet.released rfl rfl rfl rfl
  · simp only [if_neg hrst]
    have hopen : c.state.reads →
        Quiet c (rxOpen c now s).1 (rxOpen c now s).2 :=
      fun hst => rxOpen_quiet now fun hack => h ⟨hrst, Or.inr ⟨hst, hack⟩⟩
    cases hst : c.state with
    | synSent => exact rxSynSent_quiet hst fun hflags => h ⟨hrst, Or.inl ⟨hst, hflags⟩⟩
    | established => exact hopen (Or.inl hst)
    | finWait1 => exact hopen (Or.inr (Or.inl hst))
    | finWait2 => exact hopen (Or.inr (Or.inr hst))
    | lastAck =>
        simp only
        split
        · exact Quiet.released rfl rfl rfl rfl
        · exact Quiet.refl c
    | closed => exact Quiet.refl c
    | closeWait => exact Quiet.refl c
    | timeWait => exact Quiet.refl c

theorem giveUp_quiet (c : TcpConn) : Quiet c (giveUp c).1 (giveUp c).2 := by
  refine ⟨rfl, rfl, Or.inl rfl, by simp [giveUp, release, TcpState.beforeFin], ?_⟩
  intro t ht
  simp only [giveUp, List.mem_singleton] at ht
  subst ht
  exact ⟨rfl, by show (RST ||| ACK) &&& FIN = 0; decide⟩

theorem tickKeepalive_quiet (c : TcpConn) (now : UInt32) :
    Quiet c (tickKeepalive c now).1 (tickKeepalive c now).2 := by
  unfold tickKeepalive
  split
  · split
    · exact giveUp_quiet c
    · refine ⟨rfl, rfl, Or.inl rfl, id, ?_⟩
      intro t ht
      rw [List.mem_singleton] at ht
      subst ht
      exact ⟨rfl, by show ACK &&& FIN = 0; decide⟩
  · exact Quiet.refl c

end Quiet

/-- The send invariant. -/
structure SendInv (c : TcpConn) (h : SendHist) : Prop where
  counts : c.sndNxt = seqAdd (h.iss + 1) h.used
  forward : seqGe c.sndNxt h.prev
  noFin : c.state.beforeFin → h.finSent = false
  small : h.accepted.length ≤ 2 ^ 32
  buffer : c.txBuf.val ≠ [] → c.txSeq = seqAdd (h.iss + 1) h.txPos ∧
    c.txBuf.val = (h.accepted.drop h.txPos).take c.txBuf.val.length
  sent : ∀ x ∈ h.sent, x.seq = seqAdd (h.iss + 1) x.index ∧
    h.accepted[x.index]? = some x.value

section Inv
variable {c c' : TcpConn} {h : SendHist}

theorem seqGe_seqAdd {b : UInt32} {k : Nat} (hk : k < 2 ^ 31) : seqGe (seqAdd b k) b := by
  unfold seqGe
  rw [seqAdd_sub (by omega)]
  exact hk

theorem seqGe_refl (b : UInt32) : seqGe b b := by
  simpa using seqGe_seqAdd (b := b) (k := 0) (by decide)

/-- The bytes of a segment that repeats accepted payload from index `base`. -/
theorem sentBytes_spec {iss : UInt32} {accepted : Bytes} {base : Nat} {t : TxSeg}
    (hseq : t.seq = seqAdd (iss + 1) base)
    (hdata : t.data = (accepted.drop base).take t.data.length) :
    ∀ x ∈ sentBytes base t, x.seq = seqAdd (iss + 1) x.index ∧
      accepted[x.index]? = some x.value := by
  intro x hx
  obtain ⟨j, hj, rfl⟩ := List.mem_mapIdx.mp hx
  refine ⟨?_, ?_⟩
  · rw [hseq, seqAdd_seqAdd]
  · calc
      accepted[base + j]? = (accepted.drop base)[j]? := by rw [List.getElem?_drop]
      _ = ((accepted.drop base).take t.data.length)[j]? := by rw [List.getElem?_take_of_lt hj]
      _ = some t.data[j] := by rw [← hdata, List.getElem?_eq_getElem hj]

theorem SendInv.sent_mono {more : Bytes} (hi : SendInv c h) :
    ∀ x ∈ h.sent, x.seq = seqAdd (h.iss + 1) x.index ∧
      (h.accepted ++ more)[x.index]? = some x.value := by
  intro x hx
  obtain ⟨hseq, hval⟩ := hi.sent x hx
  obtain ⟨hlt, _⟩ := List.getElem?_eq_some_iff.mp hval
  exact ⟨hseq, by rw [List.getElem?_append_left hlt]; exact hval⟩

/-- A quiet event adds nothing to the history. -/
theorem SendInv.quiet {tx : List TxSeg} (base : Nat) (hi : SendInv c h) (hq : Quiet c c' tx) :
    SendInv c' { h with
      accepted := h.accepted ++ []
      finSent := h.finSent || hasFin tx
      prev := c.sndNxt
      sent := h.sent ++ tx.flatMap (sentBytes base) } := by
  have hfin : hasFin tx = false := by
    rw [hasFin, List.any_eq_false]
    intro t ht
    simp [(hq.tx t ht).2]
  have hsent : tx.flatMap (sentBytes base) = [] := by
    rw [List.flatMap_eq_nil_iff]
    intro t ht
    simp [sentBytes, (hq.tx t ht).1]
  simp only [hfin, hsent, Bool.or_false, List.append_nil]
  constructor
  · rw [hq.sndNxt]
    exact hi.counts
  · rw [hq.sndNxt]
    exact seqGe_refl _
  · exact fun hst => hi.noFin (hq.state hst)
  · exact hi.small
  · intro hne
    rcases hq.txBuf with hb | hb
    · rw [hb] at hne ⊢
      rw [hq.txSeq]
      exact hi.buffer hne
    · exact absurd hb hne
  · exact hi.sent

/-- An accepted send appends its bytes to the payload and transmits them. -/
theorem sendInv_send {now : UInt32} {data : Bytes} (hi : SendInv c h)
    (hsmall : h.accepted.length + (data.take txSize).length ≤ 2 ^ 32) :
    SendInv (sendStep (c, h) (.send now data)).1 (sendStep (c, h) (.send now data)).2 := by
  by_cases hopen : c.used = false ∨ c.state ≠ .established
  · simp only [sendStep, ConnEv.apply, netTcpSend, if_pos hopen, acceptedBytes]
    exact hi.quiet _ (Quiet.refl c)
  · have hst : c.state = .established := by
      by_contra hne
      exact hopen (Or.inr hne)
    have hfin : h.finSent = false := hi.noFin (Or.inr (Or.inl hst))
    have hnxt : c.sndNxt = seqAdd (h.iss + 1) h.accepted.length := by
      rw [hi.counts, SendHist.used, hfin]
      rfl
    have hacc : acceptedBytes data ((data.take txSize).length : Int) = data.take txSize :=
      acceptedBytes_take data txSize
    have hnofin : hasFin [tcpTx c (PSH ||| ACK) c.sndNxt c.rcvNxt (data.take txSize)] = false := by
      rw [hasFin_tcpTx]
      decide
    have hlen : (data.take txSize).length ≤ 1400 := List.length_take_le _ _
    simp only [sendStep, ConnEv.apply, netTcpSend, if_neg hopen, hacc, hnofin, firstIndex,
      Bool.or_false, List.flatMap_cons, List.flatMap_nil, List.append_nil]
    constructor
    · change seqAdd c.sndNxt _ = _
      rw [hnxt, seqAdd_seqAdd, SendHist.used, hfin, List.length_append]
      rfl
    · exact seqGe_seqAdd (by omega)
    · exact fun _ => hfin
    · rw [List.length_append]
      exact hsmall
    · intro hne
      rw [if_neg hne]
      refine ⟨hnxt, ?_⟩
      simp only
      rw [List.drop_left, List.take_length]
    · intro x hx
      rcases List.mem_append.mp hx with hx | hx
      · exact hi.sent_mono x hx
      · apply sentBytes_spec hnxt ?_ x hx
        change data.take txSize = ((h.accepted ++ data.take txSize).drop h.accepted.length).take
          (data.take txSize).length
        rw [List.drop_left, List.take_length]

/-- Closing sends the FIN under `snd_nxt` and counts it, once. -/
theorem sendInv_close (hi : SendInv c h) :
    SendInv (sendStep (c, h) .close).1 (sendStep (c, h) .close).2 := by
  by_cases hused : c.used = false
  · simp only [sendStep, ConnEv.apply, closeBegin, if_pos hused]
    exact hi.quiet _ (Quiet.refl c)
  by_cases hst : c.state = .established ∨ c.state = .closeWait
  · have hfin : h.finSent = false := hi.noFin (Or.inr hst)
    have hhas : hasFin [tcpTx c (FIN ||| ACK) c.sndNxt c.rcvNxt []] = true := by
      rw [hasFin_tcpTx]
      decide
    have hnone : sentBytes h.txPos (tcpTx c (FIN ||| ACK) c.sndNxt c.rcvNxt []) = [] := rfl
    simp only [sendStep, ConnEv.apply, closeBegin, if_neg hused, if_pos hst, hhas, firstIndex,
      Bool.or_true, List.flatMap_cons, List.flatMap_nil, List.append_nil, hnone, if_true]
    constructor
    · change c.sndNxt + 1 = _
      rw [hi.counts, seqAdd_succ, SendHist.used, SendHist.used, hfin]
      rfl
    · exact seqGe_seqAdd (k := 1) (by decide)
    · intro hbefore
      simp only at hbefore
      split at hbefore <;> simp [TcpState.beforeFin] at hbefore
    · exact hi.small
    · exact hi.buffer
    · exact hi.sent
  · simp only [sendStep, ConnEv.apply, closeBegin, if_neg hused, if_neg hst]
    exact hi.quiet _ (Quiet.released rfl rfl rfl rfl)

/-- The timer transmits nothing but what the retransmit buffer holds. -/
theorem sendInv_tick {now : UInt32} (hi : SendInv c h) :
    SendInv (sendStep (c, h) (.tick now)).1 (sendStep (c, h) (.tick now)).2 := by
  by_cases hopen : c.used = false ∨ c.state ≠ .established
  · simp only [sendStep, ConnEv.apply, tickConn, if_pos hopen]
    exact hi.quiet _ (Quiet.refl c)
  by_cases hrto : rtoElapsed c now
  · by_cases hmax : maxRetrans ≤ c.retransCount
    · simp only [sendStep, ConnEv.apply, tickConn, if_neg hopen, if_pos hrto, if_pos hmax]
      exact hi.quiet _ (giveUp_quiet c)
    · obtain ⟨hseq, hdata⟩ := hi.buffer (List.ne_nil_of_length_pos hrto.1)
      have hnofin : ∀ tx, hasFin (tcpTx c (PSH ||| ACK) c.txSeq c.rcvNxt c.txBuf.val :: tx) =
          hasFin tx := by
        intro tx
        rw [hasFin_tcpTx, decide_eq_false (by decide), Bool.false_or]
      have hbase : SendInv { c with retransTick := now, retransCount := c.retransCount + 1 }
          { h with sent := (h.sent ++ sentBytes h.txPos
              (tcpTx c (PSH ||| ACK) c.txSeq c.rcvNxt c.txBuf.val)) } := by
        refine ⟨hi.counts, hi.forward, hi.noFin, hi.small, hi.buffer, ?_⟩
        intro x hx
        rcases List.mem_append.mp hx with hx | hx
        · exact hi.sent x hx
        · exact sentBytes_spec hseq hdata x hx
      have hquiet := hbase.quiet h.txPos (tickKeepalive_quiet _ now)
      simp only [sendStep, ConnEv.apply, tickConn, if_neg hopen, if_pos hrto, if_neg hmax, hnofin,
        firstIndex, List.flatMap_cons, if_true]
      rw [← List.append_assoc]
      exact hquiet
  · simp only [sendStep, ConnEv.apply, tickConn, if_neg hopen, if_neg hrto]
    exact hi.quiet _ (tickKeepalive_quiet c now)

theorem sendInv_step {s : TcpConn × SendHist} {e : ConnEv} (hi : SendInv s.1 s.2)
    (hg : currentAcks s e) : SendInv (sendStep s e).1 (sendStep s e).2 := by
  obtain ⟨c, h⟩ := s
  cases e with
  | rx now seg =>
      simp only [sendStep, ConnEv.apply]
      split
      · exact hi.quiet _ (Quiet.refl c)
      · exact hi.quiet _ (rxConn_quiet now hg)
  | send now data => exact sendInv_send hi hg
  | recv maxlen => exact hi.quiet h.txPos ⟨rfl, rfl, Or.inl rfl, id, fun _ ht => nomatch ht⟩
  | close => exact sendInv_close hi
  | release => exact hi.quiet h.txPos (Quiet.released rfl rfl rfl rfl)
  | tick now => exact sendInv_tick hi

theorem sendInv_start {s : TcpConn × SendHist} (hs : ConnectStart s) : SendInv s.1 s.2 := by
  obtain ⟨c, now, mac, ip, dstPort, srcPort⟩ := hs
  constructor
  · have hsyn : synSeq (openActive c now mac ip dstPort srcPort).2 = activeIss srcPort := by
      exact synSeq_tcpTx (by decide) _ _ _ _
    change activeIss srcPort + 1 = seqAdd (synSeq _ + 1) 0
    rw [hsyn, seqAdd_zero]
  · exact seqGe_refl _
  · exact fun _ => rfl
  · exact Nat.zero_le _
  · exact fun hne => absurd rfl hne
  · intro x hx
    cases hx

theorem SendInv.correct (hi : SendInv c h) : SendCorrect (c, h) := by
  refine ⟨hi.counts, hi.forward, fun x hx => (hi.sent x hx).2, ?_⟩
  intro x hx y hy hseq
  obtain ⟨hxs, hxv⟩ := hi.sent x hx
  obtain ⟨hys, hyv⟩ := hi.sent y hy
  obtain ⟨hxl, _⟩ := List.getElem?_eq_some_iff.mp hxv
  obtain ⟨hyl, _⟩ := List.getElem?_eq_some_iff.mp hyv
  have hsmall := hi.small
  apply seqAdd_inj (b := h.iss + 1)
  · omega
  · omega
  · rw [← hxs, ← hys]
    exact hseq

end Inv

/-- In every run of a connection opened by `net_tcp_connect` whose processed
acknowledgements all equal `snd_nxt` when they arrive, and whose accepted
payload fits the sequence space, the send invariant holds throughout. -/
theorem send_correct (s : TcpConn × SendHist) (r : Reach ConnectStart currentAcks sendStep s) :
    SendCorrect s := by
  apply SendInv.correct
  exact Reach.invariant (P := fun s => SendInv s.1 s.2) (fun _ hs => sendInv_start hs)
    (fun _ _ hi hg => sendInv_step hi hg) r

/-- A segment without payload from 10.0.2.2 port 80 to port 49152. -/
def serverSeg (ack : UInt32) (flags : UInt8) : Seg := Seg.bare 80 49152 ack flags

/-- The first connection after boot, to 10.0.2.2 port 80. -/
def firstConnect : TcpConn × List TxSeg :=
  openActive .zero 0 (Vector.replicate 6 0) gatewayIp 80 49152

/-- Its SYN is answered and two bytes are sent. -/
def twoBytesSent : TcpConn × SendHist :=
  [ConnEv.rx 0 (serverSeg (activeIss 49152 + 1) (SYN ||| ACK)), .send 0 [1, 2]].foldl sendStep
    (firstConnect.1, .opened firstConnect)

theorem send_correct_two_bytes : SendCorrect twoBytesSent := by
  apply send_correct
  apply Reach.next
  · apply Reach.next
    · exact Reach.start ⟨.zero, 0, Vector.replicate 6 0, #v[10, 0, 2, 2], 80, 49152⟩
    · exact fun _ => by decide
  · show _ ≤ _
    decide

/-- After two bytes are sent, the acknowledgement of the SYN alone arrives once
more, delayed, and takes `snd_nxt` back in front of both bytes. -/
theorem delayed_ack_moves_snd_nxt_back :
    ¬ ∀ s, Reach SendStart peerAcks sendStep s → SendCorrect s := by
  intro hall
  have hreach : Reach SendStart peerAcks sendStep
      (sendStep twoBytesSent (.rx 0 (serverSeg (activeIss 49152 + 1) ACK))) := by
    apply Reach.next
    · apply Reach.next
      · apply Reach.next
        · exact Reach.start (.connect ⟨.zero, 0, Vector.replicate 6 0, #v[10, 0, 2, 2], 80, 49152⟩)
        · exact fun _ => ⟨0, by decide, by decide⟩
      · trivial
    · exact fun _ => ⟨0, by decide, by decide⟩
  exact absurd (hall _ hreach).counts (by decide)

end OriaOS.Tcp
