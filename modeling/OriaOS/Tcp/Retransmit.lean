import OriaOS.Lib.Reach
import OriaOS.Lib.Seq
import OriaOS.Tcp.Conn

/-!
# The retransmit buffer

A payload byte is pending from the `net_tcp_send` that accepted it until an
acknowledgement that covers it is received. A connection has one retransmit
buffer, and a send replaces it, so pending bytes stay in it only in the runs
where a send finds it empty.
-/

namespace OriaOS.Tcp

open OriaOS.Lib

/-- An acknowledgement covers a sequence number strictly before it. -/
def Covers (a q : UInt32) : Prop := a ≠ q ∧ seqGe a q

instance (a q : UInt32) : Decidable (Covers a q) := inferInstanceAs (Decidable (_ ∧ _))

/-- Accepted payload bytes with their sequence numbers, not yet acknowledged. -/
abbrev Pending := List (UInt32 × UInt8)

/-- Accepted bytes numbered from `seq`. -/
def numbered (seq : UInt32) (data : Bytes) : Pending := data.mapIdx fun j b => (seqAdd seq j, b)

/-- A send adds what it accepted under the numbers from `snd_nxt`; a received
acknowledgement removes what it covers. -/
def pendingAfter (c : TcpConn) (pend : Pending) : ConnEv → Pending
  | .send now data => pend ++ numbered c.sndNxt (ConnEv.apply c (.send now data)).2.accepted
  | .rx _ s =>
      if c.used = true ∧ s.has ACK then pend.filter fun x => ¬ Covers s.ack x.1 else pend
  | _ => pend

def retransStep (s : TcpConn × Pending) (e : ConnEv) : TcpConn × Pending :=
  ((e.apply s.1).1, pendingAfter s.1 s.2 e)

/-- A connection that has just been opened, by either side. -/
inductive RetransStart : TcpConn × Pending → Prop
  | active (c : TcpConn) (now : UInt32) (mac : Mac) (ip : Ip) (dstPort srcPort : UInt16) :
      RetransStart ((openActive c now mac ip dstPort srcPort).1, [])
  | passive (c : TcpConn) (now : UInt32) (s : Seg) : RetransStart ((openPassive c now s).1, [])

/-- The byte is in the retransmit buffer, at the place its number says. -/
def Held (c : TcpConn) (x : UInt32 × UInt8) : Prop :=
  ∃ j, c.txBuf.val[j]? = some x.2 ∧ x.1 = seqAdd c.txSeq j

/-- The byte is sent by the segment under its number. -/
def Carries (t : TxSeg) (x : UInt32 × UInt8) : Prop :=
  ∃ j, t.data[j]? = some x.2 ∧ x.1 = seqAdd t.seq j

/-- Every pending byte is held, and every timer call that finds the timeout
elapsed and retries left sends it again under its number. -/
def RetransComplete (s : TcpConn × Pending) : Prop :=
  s.1.used = true → ∀ x ∈ s.2, Held s.1 x ∧
    ∀ now, s.1.state = .established → rtoElapsed s.1 now → s.1.retransCount < maxRetrans →
      ∃ t ∈ (tickConn s.1 now).2, Carries t x

/-- The condition on sends and acknowledgements: a send that goes through finds
the buffer empty, and an acknowledgement that is read is not so far ahead that
the signed comparison covers the buffer's end but not its start. -/
def oneInFlight (s : TcpConn × Pending) : ConnEv → Prop
  | .send _ _ => s.1.used = true → s.1.state = .established → s.1.txBuf.val = []
  | .rx _ seg => s.1.state.reads → seg.has ACK → ¬ seg.has RST →
      seqGe seg.ack (seqAdd s.1.txSeq s.1.txBuf.val.length) →
      (seg.ack - seqAdd s.1.txSeq s.1.txBuf.val.length).toNat + s.1.txBuf.val.length < 2 ^ 31
  | _ => True

section Lemmas
variable {c c' : TcpConn} {x : UInt32 × UInt8}

theorem Held.congr (h : Held c x) (hbuf : c'.txBuf = c.txBuf) (hseq : c'.txSeq = c.txSeq) :
    Held c' x := by
  unfold Held
  rw [hbuf, hseq]
  exact h

/-- A segment that carries the buffer carries every byte held there. -/
theorem Held.carries {t : TxSeg} (h : Held c x) (hdata : t.data = c.txBuf.val)
    (hseq : t.seq = c.txSeq) : Carries t x := by
  unfold Carries
  rw [hdata, hseq]
  exact h

/-- The timer resends the buffer under its own sequence number. -/
theorem tickConn_resends {now : UInt32} (hused : c.used = true) (hst : c.state = .established)
    (hrto : rtoElapsed c now) (hcount : c.retransCount < maxRetrans) :
    ∃ t ∈ (tickConn c now).2, t.data = c.txBuf.val ∧ t.seq = c.txSeq := by
  have hopen : ¬ (c.used = false ∨ c.state ≠ .established) := by simp [hused, hst]
  have hmax : ¬ maxRetrans ≤ c.retransCount := UInt8.not_le.mpr hcount
  simp only [tickConn, if_neg hopen, if_pos hrto, if_neg hmax]
  exact ⟨_, List.mem_cons_self, rfl, rfl⟩

/-- The number of a byte at place `j` is covered by an acknowledgement that is
at or after the end of the buffer and within the signed range of its start. -/
theorem covers_of_end {a seq : UInt32} {j n : Nat} (hj : j < n)
    (hend : (a - seqAdd seq n).toNat + n < 2 ^ 31) : Covers a (seqAdd seq j) := by
  have hsplit : a = seqAdd (seqAdd seq j) (n - j + (a - seqAdd seq n).toNat) := by
    rw [seqAdd_seqAdd, ← Nat.add_assoc, Nat.add_sub_of_le (Nat.le_of_lt hj), ← seqAdd_seqAdd]
    unfold seqAdd
    rw [UInt32.ofNat_toNat, UInt32.add_comm, UInt32.sub_add_cancel]
  have hdist : (a - seqAdd seq j).toNat = n - j + (a - seqAdd seq n).toNat := by
    conv => lhs; rw [hsplit]
    rw [seqAdd_sub (by omega)]
  refine ⟨?_, ?_⟩
  · intro heq
    rw [heq, UInt32.sub_self] at hdist
    have : (0 : UInt32).toNat = 0 := rfl
    omega
  · unfold seqGe
    omega

/-- What a processed acknowledgement does to the transmit buffer. -/
theorem rxAck_txBuf (c : TcpConn) (a : UInt32) :
    (rxAck c a).txSeq = c.txSeq ∧
      ((rxAck c a).txBuf = c.txBuf ∨
        seqGe a (seqAdd c.txSeq c.txBuf.val.length) ∧ (rxAck c a).txBuf = .empty) := by
  unfold rxAck ackTxBuf
  split
  · next h =>
      unfold ackSndNxt
      split
      · exact ⟨rfl, Or.inr ⟨h.2, rfl⟩⟩
      · exact ⟨rfl, Or.inr ⟨h.2, rfl⟩⟩
  · unfold ackSndNxt
    split
    · exact ⟨rfl, Or.inl rfl⟩
    · exact ⟨rfl, Or.inl rfl⟩

/-- What a segment does to the transmit buffer. -/
theorem rxConn_txBuf (c : TcpConn) (now : UInt32) (s : Seg) :
    (rxConn c now s).1.txSeq = c.txSeq ∧
      ((rxConn c now s).1.txBuf = c.txBuf ∨
        c.state.reads ∧ ¬ s.has RST ∧ s.has ACK ∧
          seqGe s.ack (seqAdd c.txSeq c.txBuf.val.length) ∧
          (rxConn c now s).1.txBuf = .empty) := by
  by_cases hrst : s.has RST
  · simp only [rxConn, if_pos hrst]
    exact ⟨rfl, Or.inl rfl⟩
  have hopen : (rxOpen c now s).1.txSeq = c.txSeq ∧
      ((rxOpen c now s).1.txBuf = c.txBuf ∨
        s.has ACK ∧ seqGe s.ack (seqAdd c.txSeq c.txBuf.val.length) ∧
          (rxOpen c now s).1.txBuf = .empty) := by
    have hack : (if s.has ACK then rxAck c s.ack else c).txSeq = c.txSeq ∧
        ((if s.has ACK then rxAck c s.ack else c).txBuf = c.txBuf ∨
          s.has ACK ∧ seqGe s.ack (seqAdd c.txSeq c.txBuf.val.length) ∧
            (if s.has ACK then rxAck c s.ack else c).txBuf = .empty) := by
      split
      · next h => exact ⟨(rxAck_txBuf c s.ack).1, (rxAck_txBuf c s.ack).2.imp_right fun hh => ⟨h, hh⟩⟩
      · exact ⟨rfl, Or.inl rfl⟩
    unfold rxOpen
    generalize (if s.has ACK then rxAck c s.ack else c) = c₁ at hack ⊢
    have hdata : ∀ r : TcpConn × List TxSeg, r = rxData c₁ now s ∨ r = (c₁, []) →
        r.1.txSeq = c₁.txSeq ∧ r.1.txBuf = c₁.txBuf := by
      rintro r (rfl | rfl)
      · exact ⟨(rxData_sameTx c₁ now s).1.txSeq, (rxData_sameTx c₁ now s).1.txBuf⟩
      · exact ⟨rfl, rfl⟩
    have hdata' := hdata _ (ite_eq_or_eq (0 < s.data.length ∧ c₁.state = .established)
      (rxData c₁ now s) (c₁, []))
    simp only
    generalize (if 0 < s.data.length ∧ c₁.state = .established then rxData c₁ now s
      else (c₁, [])) = r₂ at hdata' ⊢
    have hfin : (if s.has FIN then rxFin r₂.1 else (r₂.1, [])).1.txSeq = c₁.txSeq ∧
        (if s.has FIN then rxFin r₂.1 else (r₂.1, [])).1.txBuf = c₁.txBuf := by
      split
      · exact hdata'
      · exact hdata'
    rw [hfin.1, hfin.2]
    exact hack
  simp only [rxConn, if_neg hrst]
  cases hst : c.state with
  | established => exact ⟨hopen.1, hopen.2.imp_right fun h => ⟨Or.inl rfl, hrst, h⟩⟩
  | finWait1 => exact ⟨hopen.1, hopen.2.imp_right fun h => ⟨Or.inr (Or.inl rfl), hrst, h⟩⟩
  | finWait2 => exact ⟨hopen.1, hopen.2.imp_right fun h => ⟨Or.inr (Or.inr rfl), hrst, h⟩⟩
  | synSent =>
      simp only [rxSynSent]
      split
      · exact ⟨rfl, Or.inl rfl⟩
      · exact ⟨rfl, Or.inl rfl⟩
  | lastAck =>
      simp only
      split
      · exact ⟨rfl, Or.inl rfl⟩
      · exact ⟨rfl, Or.inl rfl⟩
  | closed => exact ⟨rfl, Or.inl rfl⟩
  | closeWait => exact ⟨rfl, Or.inl rfl⟩
  | timeWait => exact ⟨rfl, Or.inl rfl⟩

theorem tickKeepalive_txBuf (c : TcpConn) (now : UInt32) :
    (tickKeepalive c now).1.txBuf = c.txBuf ∧ (tickKeepalive c now).1.txSeq = c.txSeq := by
  unfold tickKeepalive giveUp
  split
  · split
    · exact ⟨rfl, rfl⟩
    · exact ⟨rfl, rfl⟩
  · exact ⟨rfl, rfl⟩

theorem tickConn_txBuf (c : TcpConn) (now : UInt32) :
    (tickConn c now).1.txBuf = c.txBuf ∧ (tickConn c now).1.txSeq = c.txSeq := by
  unfold tickConn giveUp
  split
  · exact ⟨rfl, rfl⟩
  · split
    · split
      · exact ⟨rfl, rfl⟩
      · exact tickKeepalive_txBuf _ now
    · exact tickKeepalive_txBuf c now

theorem closeBegin_txBuf (c : TcpConn) :
    (closeBegin c).1.txBuf = c.txBuf ∧ (closeBegin c).1.txSeq = c.txSeq := by
  unfold closeBegin
  split
  · exact ⟨rfl, rfl⟩
  · split
    · exact ⟨rfl, rfl⟩
    · exact ⟨rfl, rfl⟩

/-- The bytes an accepted send numbers are the ones it puts in the buffer. -/
theorem numbered_held {data : Bytes} (hbuf : c.txBuf.val = data) (hx : x ∈ numbered c.txSeq data) :
    Held c x := by
  obtain ⟨j, hj, rfl⟩ := List.mem_mapIdx.mp hx
  refine ⟨j, ?_, rfl⟩
  rw [hbuf]
  exact List.getElem?_eq_getElem hj

/-- No event makes an unused connection used. -/
theorem apply_used (e : ConnEv) (h : (e.apply c).1.used = true) : c.used = true := by
  by_contra hne
  have hfree : c.used = false := Bool.eq_false_iff.mpr hne
  cases e with
  | rx now s => simp [ConnEv.apply, hfree] at h
  | send now data => simp [ConnEv.apply, netTcpSend, hfree] at h
  | recv maxlen => exact hne h
  | close => simp [ConnEv.apply, closeBegin, hfree] at h
  | release => exact Bool.false_ne_true h
  | tick now => simp [ConnEv.apply, tickConn, hfree] at h

/-- Every pending byte of a used connection is in its retransmit buffer. -/
def AllHeld (s : TcpConn × Pending) : Prop := s.1.used = true → ∀ x ∈ s.2, Held s.1 x

theorem allHeld_send {pend : Pending} {now : UInt32} {data : Bytes} (h : AllHeld (c, pend))
    (hg : oneInFlight (c, pend) (.send now data)) :
    AllHeld (retransStep (c, pend) (.send now data)) := by
  by_cases hopen : c.used = false ∨ c.state ≠ .established
  · intro hused x hx
    simp only [retransStep, pendingAfter, ConnEv.apply, netTcpSend, if_pos hopen, acceptedBytes]
      at hused hx ⊢
    exact h hused x (by simpa [numbered] using hx)
  · rw [not_or, not_not] at hopen
    have hfree : c.txBuf.val = [] := hg (by simpa using hopen.1) hopen.2
    have hnone : pend = [] := by
      apply List.eq_nil_iff_forall_not_mem.mpr
      intro x hx
      obtain ⟨j, hj, _⟩ := h (by simpa using hopen.1) x hx
      simp [hfree] at hj
    intro _ x hx
    have hclosed : ¬ (c.used = false ∨ c.state ≠ .established) := by simpa using hopen
    simp only [retransStep, pendingAfter, ConnEv.apply, netTcpSend, if_neg hclosed, hnone,
      List.nil_append] at hx ⊢
    have hacc : acceptedBytes data ((data.take txSize).length : Int) = data.take txSize :=
      acceptedBytes_take data txSize
    rw [hacc] at hx
    exact numbered_held rfl hx

theorem allHeld_rx {pend : Pending} {now : UInt32} {seg : Seg} (h : AllHeld (c, pend))
    (hg : oneInFlight (c, pend) (.rx now seg)) :
    AllHeld (retransStep (c, pend) (.rx now seg)) := by
  intro hused' x hx
  have hused : c.used = true := apply_used (.rx now seg) hused'
  have hfree : ¬ c.used = false := by simp [hused]
  have hmem : x ∈ pend := by
    simp only [retransStep, pendingAfter] at hx
    split at hx
    · exact (List.mem_filter.mp hx).1
    · exact hx
  have hheld := h hused x hmem
  simp only [retransStep, ConnEv.apply, if_neg hfree]
  obtain ⟨hseq, hbuf⟩ := rxConn_txBuf c now seg
  rcases hbuf with hbuf | ⟨hreads, hrst, hack, hge, _⟩
  · exact hheld.congr hbuf hseq
  · -- The buffer was cleared, so the acknowledgement covers every byte in it.
    exfalso
    obtain ⟨j, hj, hnum⟩ := hheld
    obtain ⟨hlt, _⟩ := List.getElem?_eq_some_iff.mp hj
    have hcov : Covers seg.ack x.1 := by
      rw [hnum]
      exact covers_of_end hlt (hg hreads hack hrst hge)
    simp only [retransStep, pendingAfter, hused, hack, and_self, if_true] at hx
    have hnot := (List.mem_filter.mp hx).2
    simp [hcov] at hnot

theorem allHeld_step {s : TcpConn × Pending} {e : ConnEv} (h : AllHeld s)
    (hg : oneInFlight s e) : AllHeld (retransStep s e) := by
  obtain ⟨c, pend⟩ := s
  -- The remaining events leave buffer and pending bytes alone.
  have hsame : (e.apply c).1.txBuf = c.txBuf ∧ (e.apply c).1.txSeq = c.txSeq →
      pendingAfter c pend e = pend → AllHeld (retransStep (c, pend) e) := by
    intro htx hpend hused x hx
    rw [retransStep, hpend] at hx
    exact (h (apply_used e hused) x hx).congr htx.1 htx.2
  cases e with
  | rx now seg => exact allHeld_rx h hg
  | send now data => exact allHeld_send h hg
  | recv maxlen => exact hsame ⟨rfl, rfl⟩ rfl
  | close => exact hsame (closeBegin_txBuf c) rfl
  | release => exact hsame ⟨rfl, rfl⟩ rfl
  | tick now => exact hsame (tickConn_txBuf c now) rfl

end Lemmas

/-- In every run where each accepted send finds the retransmit buffer empty and
no acknowledgement is out of signed range, every accepted and unacknowledged
byte of a used connection is held for retransmission under its number. -/
theorem retrans_complete (s : TcpConn × Pending)
    (r : Reach RetransStart oneInFlight retransStep s) : RetransComplete s := by
  have hheld : AllHeld s := by
    apply Reach.invariant (P := AllHeld) ?_ (fun _ _ h hg => allHeld_step h hg) r
    rintro _ (⟨c, now, mac, ip, dstPort, srcPort⟩ | ⟨c, now, seg⟩) _ x hx
    · cases hx
    · cases hx
  intro hused x hx
  refine ⟨hheld hused x hx, ?_⟩
  intro now hst hrto hcount
  obtain ⟨t, ht, hdata, hseq⟩ := tickConn_resends hused hst hrto hcount
  exact ⟨t, ht, (hheld hused x hx).carries hdata hseq⟩

/-- A connection a peer has just opened. -/
def greetedConn : TcpConn :=
  (openPassive .zero 0 (Seg.bare 5000 80 0 SYN)).1

theorem greetedConn_start : RetransStart (greetedConn, []) := .passive _ _ _

/-- One send into the empty buffer. -/
theorem retrans_complete_one_send :
    RetransComplete (retransStep (greetedConn, []) (.send 0 [97])) := by
  apply retrans_complete
  apply Reach.next _ (Reach.start greetedConn_start)
  exact fun _ _ => rfl

/-- Two sends in a row, as `tcp_send_all` makes them: the first byte is
unacknowledged and in no buffer. -/
theorem second_send_drops_first :
    ¬ ∀ s, Reach RetransStart anyInput retransStep s → RetransComplete s := by
  intro hall
  have hreach : Reach RetransStart anyInput retransStep
      (retransStep (retransStep (greetedConn, []) (.send 0 [97])) (.send 0 [98])) := by
    apply Reach.next _ _ trivial
    apply Reach.next _ _ trivial
    exact Reach.start greetedConn_start
  obtain ⟨⟨j, hj, hseq⟩, _⟩ := hall _ hreach rfl (0xAC000002, 97) (by decide)
  have hval : ([98] : Bytes)[j]? = some 97 := hj
  cases j with
  | zero => exact absurd hval (by decide)
  | succ j => exact absurd hval (by simp)

end OriaOS.Tcp
