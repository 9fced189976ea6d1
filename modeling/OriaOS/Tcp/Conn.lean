import OriaOS.Lib.Ring

/-!
# One TCP connection

The connection record of the network stack and the bodies of the functions
that read and write it. Everything here acts on one `TcpConn`; which connection
a segment or a call reaches is decided by the connection table. Times are the
values of `get_ticks` the code would read, and the segments a function sends
are returned in order.

The two transmit-size buffers are held as the bytes below their length field,
so `tx_len` and `ooo_len` are the lengths of `txBuf` and `oooBuf`.
-/

namespace OriaOS.Tcp

open OriaOS.Lib

abbrev Bytes := List UInt8
abbrev Ip := Vector UInt8 4
abbrev Mac := Vector UInt8 6

inductive TcpState
  | closed
  | synSent
  | established
  | finWait1
  | finWait2
  | closeWait
  | lastAck
  | timeWait
  deriving DecidableEq, Repr

/-- The states in which `tcp_rx_process` reads acknowledgements, payload and FIN. -/
def TcpState.reads (st : TcpState) : Prop :=
  st = .established ∨ st = .finWait1 ∨ st = .finWait2

def FIN : UInt8 := 0x01
def SYN : UInt8 := 0x02
def RST : UInt8 := 0x04
def PSH : UInt8 := 0x08
def ACK : UInt8 := 0x10

abbrev rxSize : Nat := 4096
abbrev txSize : Nat := 1400

instance : NeZero rxSize := ⟨by decide⟩

def rto : UInt32 := 200
def maxRetrans : UInt8 := 5
def keepaliveIdle : UInt32 := 30000
def keepaliveIntvl : UInt32 := 5000
def keepaliveCnt : UInt8 := 3

/-- The bytes in use of a transmit-size buffer. -/
abbrev Chunk := { l : Bytes // l.length ≤ txSize }

/-- A decoded incoming segment with the addresses of its IP and Ethernet
headers. Its payload length fits the 16-bit length `tcp_rx_push` takes. -/
structure Seg where
  srcIp : Ip
  srcMac : Mac
  srcPort : UInt16
  dstPort : UInt16
  seq : UInt32
  ack : UInt32
  flags : UInt8
  data : Bytes
  length_le : data.length ≤ 65535

/-- The peer of the sample runs: the gateway of the emulator's network. -/
def gatewayIp : Ip := #v[10, 0, 2, 2]

/-- A segment from there without data. -/
def Seg.bare (srcPort dstPort : UInt16) (ack : UInt32) (flags : UInt8) : Seg where
  srcIp := gatewayIp
  srcMac := Vector.replicate 6 0
  srcPort := srcPort
  dstPort := dstPort
  seq := 0
  ack := ack
  flags := flags
  data := []
  length_le := by decide

/-- Some bit of `f` is set in the segment's flags. -/
def Seg.has (s : Seg) (f : UInt8) : Prop := s.flags &&& f ≠ 0

instance (s : Seg) (f : UInt8) : Decidable (s.has f) := inferInstanceAs (Decidable (_ ≠ _))

theorem Seg.has_of_and_eq {s : Seg} {m f : UInt8} (h : s.flags &&& m = m) (hm : m &&& f ≠ 0) :
    s.has f := by
  intro hzero
  apply hm
  rw [← h, UInt8.and_assoc, UInt8.and_comm m, ← UInt8.and_assoc, hzero, UInt8.zero_and]

/-- A segment handed to `tcp_tx`. -/
structure TxSeg where
  dstIp : Ip
  dstMac : Mac
  srcPort : UInt16
  dstPort : UInt16
  flags : UInt8
  seq : UInt32
  ack : UInt32
  data : Bytes
  deriving DecidableEq

structure TcpConn where
  used : Bool
  state : TcpState
  dstIp : Ip
  dstMac : Mac
  srcPort : UInt16
  dstPort : UInt16
  sndNxt : UInt32
  rcvNxt : UInt32
  rx : Ring UInt8 rxSize
  finRecv : Bool
  rstRecv : Bool
  txBuf : Chunk
  txSeq : UInt32
  retransTick : UInt32
  retransCount : UInt8
  oooBuf : Chunk
  oooSeq : UInt32
  lastRxTick : UInt32
  kaProbes : UInt8
  kaNextTick : UInt32

/-- A buffer with nothing in it. -/
def Chunk.empty : Chunk := ⟨[], Nat.zero_le _⟩

/-- The static zero value of the table's entries. -/
def TcpConn.zero : TcpConn where
  used := false
  state := .closed
  dstIp := Vector.replicate 4 0
  dstMac := Vector.replicate 6 0
  srcPort := 0
  dstPort := 0
  sndNxt := 0
  rcvNxt := 0
  rx := ⟨fun _ => 0, 0, 0⟩
  finRecv := false
  rstRecv := false
  txBuf := .empty
  txSeq := 0
  retransTick := 0
  retransCount := 0
  oooBuf := .empty
  oooSeq := 0
  lastRxTick := 0
  kaProbes := 0
  kaNextTick := 0

/-- `tcp_tx`: the header fields that depend on the connection and the call. -/
def tcpTx (c : TcpConn) (flags : UInt8) (seq ack : UInt32) (data : Bytes) : TxSeg where
  dstIp := c.dstIp
  dstMac := c.dstMac
  srcPort := c.srcPort
  dstPort := c.dstPort
  flags := flags
  seq := seq
  ack := ack
  data := data

/-- A bare acknowledgement of what has been received. -/
def ackNow (c : TcpConn) : TxSeg := tcpTx c ACK c.sndNxt c.rcvNxt []

/-- `tcp_rx_push`: bytes after the ring is full are dropped. -/
def tcpRxPush (c : TcpConn) (data : Bytes) : TcpConn := { c with rx := c.rx.pushAll data }

/-- The slot is given back. -/
def release (c : TcpConn) : TcpConn := { c with used := false, state := .closed }

/-- The signed 32-bit difference `a - b` is not negative. -/
def seqGe (a b : UInt32) : Prop := (a - b).toNat < 2 ^ 31

instance (a b : UInt32) : Decidable (seqGe a b) := inferInstanceAs (Decidable (_ < _))

/-- First half of `tcp_rx_process` on an acknowledgement: the retransmit buffer
is cleared once all of it is covered. -/
def ackTxBuf (c : TcpConn) (sack : UInt32) : TcpConn :=
  if 0 < c.txBuf.val.length ∧ seqGe sack (c.txSeq + UInt32.ofNat c.txBuf.val.length) then
    { c with txBuf := .empty }
  else c

/-- Second half: in FIN_WAIT1 the ACK of our FIN changes the state; in every
other case `snd_nxt` is set to the acknowledgement number. -/
def ackSndNxt (c : TcpConn) (sack : UInt32) : TcpConn :=
  if c.state = .finWait1 ∧ sack = c.sndNxt then { c with state := .finWait2 }
  else { c with sndNxt := sack }

/-- `tcp_rx_process`, acknowledgement part. -/
def rxAck (c : TcpConn) (sack : UInt32) : TcpConn := ackSndNxt (ackTxBuf c sack) sack

/-- An acknowledgement touches the retransmit buffer, `snd_nxt` and, in
FIN_WAIT1, the state. -/
theorem rxAck_frame (c : TcpConn) (sack : UInt32) :
    ∃ buf nxt st, rxAck c sack = { c with txBuf := buf, sndNxt := nxt, state := st } ∧
      (st = c.state ∨ c.state = .finWait1 ∧ st = .finWait2) := by
  have hbuf : ∃ buf, ackTxBuf c sack = { c with txBuf := buf } := by
    unfold ackTxBuf
    split
    · exact ⟨_, rfl⟩
    · exact ⟨_, rfl⟩
  obtain ⟨buf, hbuf⟩ := hbuf
  unfold rxAck ackSndNxt
  rw [hbuf]
  split
  · next hfin => exact ⟨buf, _, .finWait2, rfl, Or.inr ⟨hfin.1, rfl⟩⟩
  · exact ⟨buf, _, _, rfl, Or.inl rfl⟩

/-- The out-of-order segment is appended when it continues what was received. -/
def mergeOoo (c : TcpConn) : TcpConn :=
  if 0 < c.oooBuf.val.length ∧ c.oooSeq = c.rcvNxt then
    { tcpRxPush c c.oooBuf.val with
      rcvNxt := c.rcvNxt + UInt32.ofNat c.oooBuf.val.length
      oooBuf := .empty }
  else c

/-- Keep a segment that is ahead of the stream if the single slot is empty. -/
def keepOoo (c : TcpConn) (s : Seg) (h : s.data.length ≤ txSize) : TcpConn :=
  if c.oooBuf.val.length = 0 then { c with oooBuf := ⟨s.data, h⟩, oooSeq := s.seq } else c

/-- `tcp_rx_process`, payload part: every branch ends in an acknowledgement. -/
def rxData (c : TcpConn) (now : UInt32) (s : Seg) : TcpConn × List TxSeg :=
  let c := { c with lastRxTick := now, kaProbes := 0, kaNextTick := now + keepaliveIdle }
  if s.seq = c.rcvNxt then
    let c := tcpRxPush c s.data
    let c := mergeOoo { c with rcvNxt := c.rcvNxt + UInt32.ofNat s.data.length }
    (c, [ackNow c])
  else if h : c.rcvNxt < s.seq ∧ s.data.length ≤ txSize then
    let c := keepOoo c s h.2
    (c, [ackNow c])
  else (c, [ackNow c])

/-- Two connections with the same transmit fields. -/
structure SameTx (c c' : TcpConn) : Prop where
  sndNxt : c'.sndNxt = c.sndNxt
  txSeq : c'.txSeq = c.txSeq
  txBuf : c'.txBuf = c.txBuf
  state : c'.state = c.state

theorem mergeOoo_sameTx (c : TcpConn) : SameTx c (mergeOoo c) := by
  unfold mergeOoo
  split
  · exact ⟨rfl, rfl, rfl, rfl⟩
  · exact ⟨rfl, rfl, rfl, rfl⟩

theorem keepOoo_sameTx (c : TcpConn) (s : Seg) (h : s.data.length ≤ txSize) :
    SameTx c (keepOoo c s h) := by
  unfold keepOoo
  split
  · exact ⟨rfl, rfl, rfl, rfl⟩
  · exact ⟨rfl, rfl, rfl, rfl⟩

/-- Payload does not touch the transmit fields and is answered by one bare
acknowledgement. -/
theorem rxData_sameTx (c : TcpConn) (now : UInt32) (s : Seg) :
    SameTx c (rxData c now s).1 ∧ ∃ c', (rxData c now s).2 = [ackNow c'] := by
  by_cases heq : s.seq = c.rcvNxt
  · simp only [rxData, if_pos heq]
    exact ⟨⟨(mergeOoo_sameTx _).sndNxt, (mergeOoo_sameTx _).txSeq, (mergeOoo_sameTx _).txBuf,
      (mergeOoo_sameTx _).state⟩, _, rfl⟩
  · simp only [rxData, if_neg heq]
    split
    · exact ⟨⟨(keepOoo_sameTx _ _ _).sndNxt, (keepOoo_sameTx _ _ _).txSeq,
        (keepOoo_sameTx _ _ _).txBuf, (keepOoo_sameTx _ _ _).state⟩, _, rfl⟩
    · exact ⟨⟨rfl, rfl, rfl, rfl⟩, _, rfl⟩

/-- `tcp_rx_process`, FIN part: the sequence number of the FIN is not looked at. -/
def rxFin (c : TcpConn) : TcpConn × List TxSeg :=
  let c := { c with rcvNxt := c.rcvNxt + 1, finRecv := true }
  ({ c with state := if c.state = .established then .closeWait else .timeWait }, [ackNow c])

/-- The branch of `tcp_rx_process` for ESTABLISHED, FIN_WAIT1 and FIN_WAIT2. -/
def rxOpen (c : TcpConn) (now : UInt32) (s : Seg) : TcpConn × List TxSeg :=
  let c₁ := if s.has ACK then rxAck c s.ack else c
  let r₂ := if 0 < s.data.length ∧ c₁.state = .established then rxData c₁ now s else (c₁, [])
  let r₃ := if s.has FIN then rxFin r₂.1 else (r₂.1, [])
  (r₃.1, r₂.2 ++ r₃.2)

/-- The branch of `tcp_rx_process` for SYN_SENT. -/
def rxSynSent (c : TcpConn) (s : Seg) : TcpConn × List TxSeg :=
  if s.flags &&& (SYN ||| ACK) = SYN ||| ACK then
    let c := { c with rcvNxt := s.seq + 1, sndNxt := s.ack, state := .established }
    (c, [ackNow c])
  else (c, [])

/-- `tcp_rx_process` on the connection a segment matches. -/
def rxConn (c : TcpConn) (now : UInt32) (s : Seg) : TcpConn × List TxSeg :=
  if s.has RST then ({ release c with rstRecv := true }, [])
  else
    match c.state with
    | .synSent => rxSynSent c s
    | .established | .finWait1 | .finWait2 => rxOpen c now s
    | .lastAck => if s.has ACK then (release c, []) else (c, [])
    | .closed | .closeWait | .timeWait => (c, [])

/-- The initial sequence number `net_tcp_connect` derives from its port. -/
def activeIss (srcPort : UInt16) : UInt32 := 0x12340000 + srcPort.toUInt32 * 131

/-- `net_tcp_connect` from the resolved address to its SYN. -/
def openActive (c : TcpConn) (now : UInt32) (mac : Mac) (ip : Ip) (dstPort srcPort : UInt16) :
    TcpConn × List TxSeg :=
  let c := { c with
    dstMac := mac
    dstIp := ip
    dstPort := dstPort
    srcPort := srcPort
    sndNxt := activeIss srcPort
    rcvNxt := 0
    rx := { c.rx with head := 0, tail := 0 }
    finRecv := false
    rstRecv := false
    txBuf := .empty
    txSeq := 0
    retransTick := 0
    retransCount := 0
    oooBuf := .empty
    oooSeq := 0
    lastRxTick := now
    kaProbes := 0
    kaNextTick := now + keepaliveIdle
    state := .synSent
    used := true }
  ({ c with sndNxt := c.sndNxt + 1 }, [tcpTx c SYN c.sndNxt 0 []])

/-- `tcp_rx_process`, the connection a listener makes from a SYN. The SYN is
sent one below `snd_nxt`, which is then advanced again. -/
def openPassive (c : TcpConn) (now : UInt32) (s : Seg) : TcpConn × List TxSeg :=
  let c := { c with
    dstIp := s.srcIp
    dstMac := s.srcMac
    srcPort := s.dstPort
    dstPort := s.srcPort
    rcvNxt := s.seq + 1
    sndNxt := 0xAC000001
    state := .established
    used := true
    finRecv := false
    rstRecv := false
    txBuf := .empty
    rx := { c.rx with head := 0, tail := 0 }
    oooBuf := .empty
    kaProbes := 0
    lastRxTick := now
    kaNextTick := now + keepaliveIdle }
  ({ c with sndNxt := c.sndNxt + 1 }, [tcpTx c (SYN ||| ACK) (c.sndNxt - 1) c.rcvNxt []])

/-- `net_tcp_send` with the return value of the source. -/
def netTcpSend (c : TcpConn) (now : UInt32) (data : Bytes) : TcpConn × List TxSeg × Int :=
  if c.used = false ∨ c.state ≠ .established then (c, [], -1)
  else
    let chunk : Chunk := ⟨data.take txSize, by simp⟩
    ({ c with
        txSeq := c.sndNxt
        txBuf := chunk
        retransTick := now
        retransCount := 0
        sndNxt := c.sndNxt + UInt32.ofNat chunk.val.length },
      [tcpTx c (PSH ||| ACK) c.sndNxt c.rcvNxt chunk.val], chunk.val.length)

/-- `net_tcp_recv`, the loop that copies out of the ring. -/
def recvDrain (c : TcpConn) (maxlen : Nat) : TcpConn × Bytes :=
  let r := c.rx.take maxlen
  ({ c with rx := r.2 }, r.1)

/-- `net_tcp_close` up to its wait. -/
def closeBegin (c : TcpConn) : TcpConn × List TxSeg :=
  if c.used = false then (c, [])
  else if c.state = .established ∨ c.state = .closeWait then
    ({ c with
        sndNxt := c.sndNxt + 1
        state := if c.state = .established then .finWait1 else .lastAck },
      [tcpTx c (FIN ||| ACK) c.sndNxt c.rcvNxt []])
  else (release c, [])

/-- Unacknowledged data is older than the retransmit timeout. -/
def rtoElapsed (c : TcpConn) (now : UInt32) : Prop :=
  0 < c.txBuf.val.length ∧ rto ≤ now - c.retransTick

instance (c : TcpConn) (now : UInt32) : Decidable (rtoElapsed c now) :=
  inferInstanceAs (Decidable (_ ∧ _))

/-- The connection has been idle long enough for a keepalive probe. -/
def idleElapsed (c : TcpConn) (now : UInt32) : Prop :=
  keepaliveIdle ≤ now - c.lastRxTick ∧ c.kaNextTick ≤ now

instance (c : TcpConn) (now : UInt32) : Decidable (idleElapsed c now) :=
  inferInstanceAs (Decidable (_ ∧ _))

/-- Reset sent when a timer gives up. -/
def giveUp (c : TcpConn) : TcpConn × List TxSeg :=
  (release c, [tcpTx c (RST ||| ACK) c.sndNxt c.rcvNxt []])

/-- `net_tcp_tick`, keepalive part. -/
def tickKeepalive (c : TcpConn) (now : UInt32) : TcpConn × List TxSeg :=
  if idleElapsed c now then
    if keepaliveCnt ≤ c.kaProbes then giveUp c
    else
      ({ c with kaProbes := c.kaProbes + 1, kaNextTick := now + keepaliveIntvl },
        [tcpTx c ACK (c.sndNxt - 1) c.rcvNxt []])
  else (c, [])

/-- `net_tcp_tick` on one entry of the table. -/
def tickConn (c : TcpConn) (now : UInt32) : TcpConn × List TxSeg :=
  if c.used = false ∨ c.state ≠ .established then (c, [])
  else if rtoElapsed c now then
    if maxRetrans ≤ c.retransCount then giveUp c
    else
      let resend := tcpTx c (PSH ||| ACK) c.txSeq c.rcvNxt c.txBuf.val
      let r := tickKeepalive
        { c with retransTick := now, retransCount := c.retransCount + 1 } now
      (r.1, resend :: r.2)
  else tickKeepalive c now

/-- What can happen to a connection between its opening and its slot's reuse. -/
inductive ConnEv
  | rx (now : UInt32) (s : Seg)
  | send (now : UInt32) (data : Bytes)
  | recv (maxlen : Nat)
  | close
  | release
  | tick (now : UInt32)

/-- What an event shows to the outside: segments sent, bytes returned by
`net_tcp_recv`, and the payload `net_tcp_send` reported as accepted. -/
structure ConnOut where
  tx : List TxSeg
  got : Bytes
  accepted : Bytes

/-- The bytes a `net_tcp_send` call with this return value has accepted. -/
def acceptedBytes (data : Bytes) (ret : Int) : Bytes := data.take ret.toNat

theorem acceptedBytes_take (data : Bytes) (n : Nat) :
    acceptedBytes data ((data.take n).length : Int) = data.take n := by
  rw [acceptedBytes, Int.toNat_natCast, List.length_take, ← List.take_eq_take_min]

/-- A connection takes an event. Segments only reach used entries. -/
def ConnEv.apply (c : TcpConn) : ConnEv → TcpConn × ConnOut
  | .rx now s =>
      if c.used = false then (c, ⟨[], [], []⟩)
      else
        let r := rxConn c now s
        (r.1, ⟨r.2, [], []⟩)
  | .send now data =>
      let r := netTcpSend c now data
      (r.1, ⟨r.2.1, [], acceptedBytes data r.2.2⟩)
  | .recv maxlen =>
      let r := recvDrain c maxlen
      (r.1, ⟨[], r.2, []⟩)
  | .close =>
      let r := closeBegin c
      (r.1, ⟨r.2, [], []⟩)
  | .release => (Tcp.release c, ⟨[], [], []⟩)
  | .tick now =>
      let r := tickConn c now
      (r.1, ⟨r.2, [], []⟩)

end OriaOS.Tcp
