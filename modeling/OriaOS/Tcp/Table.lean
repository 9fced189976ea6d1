import OriaOS.Tcp.Conn

/-!
# The connection table

The table of connections, the listeners with their accept queues, and the
calls of the socket interface. A call that waits is split at its polling loop:
`Call` says which call is waiting, `poll` is one round of its loop, and
`timeout` is its deadline. Segments are only processed by such rounds or by
`net_poll`, and the timer may run between any two of them.
-/

namespace OriaOS.Tcp

open OriaOS.Lib

abbrev maxConn : Nat := 4
abbrev listenSlots : Nat := 2
abbrev Slot := Fin maxConn

instance : NeZero listenSlots := ⟨by decide⟩

structure TcpListen where
  active : Bool
  port : UInt16
  acceptQ : Fin 2 → Option Slot
  aqHead : Fin 2
  aqTail : Fin 2
  aqCount : Nat

/-- The call that is waiting in its polling loop. -/
inductive Call
  | idle
  | arp (id : Slot) (dstIp : Ip) (dstPort : UInt16)
  | syn (id : Slot)
  | recv (id : Slot) (maxlen : Nat)
  | fin (id : Slot)
  | accept (lid : Fin listenSlots)

structure Net where
  conns : Slot → TcpConn
  listen : Fin listenSlots → TcpListen
  portCtr : UInt16
  call : Call

/-- The network stack after boot. -/
def Net.boot : Net where
  conns := fun _ => .zero
  listen := fun _ => ⟨false, 0, fun _ => none, 0, 0, 0⟩
  portCtr := 49152
  call := .idle

/-- What a step shows: segments sent, the slot a connection was opened in, the
bytes a receive returned and the slot an accept returned. -/
structure NetOut where
  tx : List TxSeg := []
  opened : Option Slot := none
  got : Bytes := []
  accepted : Option Slot := none

namespace Net

def setConn (n : Net) (i : Slot) (c : TcpConn) : Net :=
  { n with conns := Function.update n.conns i c }

def setListen (n : Net) (l : Fin listenSlots) (t : TcpListen) : Net :=
  { n with listen := Function.update n.listen l t }

end Net

/-- The segment belongs to the connection. -/
def Matches (c : TcpConn) (s : Seg) : Prop :=
  c.used = true ∧ c.srcPort = s.dstPort ∧ c.dstPort = s.srcPort ∧ c.dstIp = s.srcIp

instance (c : TcpConn) (s : Seg) : Decidable (Matches c s) := inferInstanceAs (Decidable (_ ∧ _))

/-- The first connection the segment belongs to. -/
def findConn (n : Net) (s : Seg) : Option Slot :=
  (List.finRange maxConn).find? fun i => Matches (n.conns i) s

/-- The first unused entry of the table. -/
def freeSlot (n : Net) : Option Slot :=
  (List.finRange maxConn).find? fun i => (n.conns i).used = false

/-- The first active listener on the port. -/
def findListen (n : Net) (port : UInt16) : Option (Fin listenSlots) :=
  (List.finRange listenSlots).find? fun l => (n.listen l).active = true ∧ (n.listen l).port = port

/-- `tcp_send_rst_reply` to the sender of a SYN that is turned away. -/
def rstReply (s : Seg) : TxSeg where
  dstIp := s.srcIp
  dstMac := s.srcMac
  srcPort := s.dstPort
  dstPort := s.srcPort
  flags := RST ||| ACK
  seq := 0
  ack := s.seq + 1
  data := []

/-- Put a slot into the accept queue. -/
def enqueue (t : TcpListen) (i : Slot) : TcpListen :=
  { t with
    acceptQ := Function.update t.acceptQ t.aqTail (some i)
    aqTail := t.aqTail + 1
    aqCount := t.aqCount + 1 }

/-- Take the oldest slot out of the accept queue. -/
def dequeue (t : TcpListen) : TcpListen :=
  { t with aqHead := t.aqHead + 1, aqCount := t.aqCount - 1 }

/-- `tcp_rx_process`, the part for a SYN to a port that is listened on. It runs
whether or not a connection has taken the segment already. -/
def rxListen (n : Net) (now : UInt32) (s : Seg) : Net × NetOut :=
  if s.flags &&& (SYN ||| ACK) = SYN then
    match findListen n s.dstPort with
    | none => (n, {})
    | some l =>
        if 2 ≤ (n.listen l).aqCount then (n, { tx := [rstReply s] })
        else
          match freeSlot n with
          | none => (n, { tx := [rstReply s] })
          | some i =>
              let r := openPassive (n.conns i) now s
              ((n.setConn i r.1).setListen l (enqueue (n.listen l) i),
                { tx := r.2, opened := some i })
  else (n, {})

/-- `tcp_rx_process`. A reset that a connection takes ends the processing. -/
def tcpRxProcess (n : Net) (now : UInt32) (s : Seg) : Net × NetOut :=
  match findConn n s with
  | none => rxListen n now s
  | some i =>
      let r := rxConn (n.conns i) now s
      if s.has RST then (n.setConn i r.1, { tx := r.2 })
      else
        let q := rxListen (n.setConn i r.1) now s
        (q.1, { q.2 with tx := r.2 ++ q.2.tx })

/-- The rest of a polling round: the waiting call looks at what the poll did. -/
def afterPoll (n : Net) : Net × NetOut :=
  match n.call with
  | .idle => (n, {})
  | .arp _ _ _ => (n, {})
  | .syn id =>
      if (n.conns id).state = .established then ({ n with call := .idle }, {})
      else if (n.conns id).used = false then
        ({ n.setConn id (release (n.conns id)) with call := .idle }, {})
      else (n, {})
  | .recv id maxlen =>
      let c := n.conns id
      if c.rx.head ≠ c.rx.tail then
        let r := recvDrain c maxlen
        ({ n.setConn id r.1 with call := .idle }, { got := r.2 })
      else if c.finRecv = true ∨ c.state = .closeWait ∨ c.state = .closed ∨ c.used = false then
        ({ n with call := .idle }, {})
      else (n, {})
  | .fin id =>
      let c := n.conns id
      if c.used = false ∨ c.state = .timeWait ∨ c.state = .closed then
        ({ n.setConn id (release c) with call := .idle }, {})
      else (n, {})
  | .accept lid =>
      let t := n.listen lid
      if 0 < t.aqCount then
        ({ n.setListen lid (dequeue t) with call := .idle }, { accepted := t.acceptQ t.aqHead })
      else (n, {})

/-- One round of polling, with the segment it may have received. -/
def poll (n : Net) (now : UInt32) : Option Seg → Net × NetOut
  | none => afterPoll n
  | some s =>
      let r := tcpRxProcess n now s
      let q := afterPoll r.1
      (q.1, { r.2 with got := q.2.got, accepted := q.2.accepted })

/-- The deadline of the waiting call passes. -/
def timeout (n : Net) : Net :=
  match n.call with
  | .syn id => { n.setConn id (release (n.conns id)) with call := .idle }
  | .fin id => { n.setConn id (release (n.conns id)) with call := .idle }
  | _ => { n with call := .idle }

/-- `net_tcp_connect`: the slot is chosen before its address is resolved. -/
def netTcpConnect (n : Net) (dstIp : Ip) (dstPort : UInt16) : Net :=
  match freeSlot n with
  | none => n
  | some i => { n with call := .arp i dstIp dstPort }

/-- The ephemeral port counter after it has been read. -/
def nextPort (p : UInt16) : UInt16 := if p + 1 < 49152 then 49152 else p + 1

/-- `net_tcp_connect` once the address is known. -/
def connectResolved (n : Net) (now : UInt32) (mac : Mac) : Net × NetOut :=
  match n.call with
  | .arp id dstIp dstPort =>
      let r := openActive (n.conns id) now mac dstIp dstPort n.portCtr
      ({ n.setConn id r.1 with portCtr := nextPort n.portCtr, call := .syn id },
        { tx := r.2, opened := some id })
  | _ => (n, {})

/-- `net_tcp_close`: it waits only after it has sent a FIN. -/
def netTcpClose (n : Net) (id : Slot) : Net × NetOut :=
  let c := n.conns id
  let r := closeBegin c
  if c.used = true ∧ (c.state = .established ∨ c.state = .closeWait) then
    ({ n.setConn id r.1 with call := .fin id }, { tx := r.2 })
  else (n.setConn id r.1, { tx := r.2 })

/-- `net_tcp_listen`. -/
def netTcpListen (n : Net) (port : UInt16) : Net :=
  match (List.finRange listenSlots).find? fun l => (n.listen l).active = false with
  | none => n
  | some l => n.setListen l ⟨true, port, fun _ => none, 0, 0, 0⟩

/-- `net_tcp_tick`. -/
def netTcpTick (n : Net) (now : UInt32) : Net × NetOut :=
  ({ n with conns := fun i => (tickConn (n.conns i) now).1 },
    { tx := (List.finRange maxConn).flatMap fun i => (tickConn (n.conns i) now).2 })

inductive NetOp
  | poll (now : UInt32) (pkt : Option Seg)
  | timeout
  | tick (now : UInt32)
  | connect (dstIp : Ip) (dstPort : UInt16)
  | resolved (now : UInt32) (mac : Mac)
  | send (now : UInt32) (id : Slot) (data : Bytes)
  | recv (id : Slot) (maxlen : Nat)
  | close (id : Slot)
  | listen (port : UInt16)
  | accept (lid : Fin listenSlots)
  | unlisten (lid : Fin listenSlots)

/-- A call of the interface, made while none is waiting. -/
def callStep (n : Net) : NetOp → Net × NetOut
  | .connect dstIp dstPort => (netTcpConnect n dstIp dstPort, {})
  | .send now id data =>
      let r := netTcpSend (n.conns id) now data
      (n.setConn id r.1, { tx := r.2.1 })
  | .recv id maxlen =>
      if (n.conns id).used = false then (n, {}) else ({ n with call := .recv id maxlen }, {})
  | .close id => netTcpClose n id
  | .listen port => (netTcpListen n port, {})
  | .accept lid =>
      if (n.listen lid).active = false then (n, {}) else ({ n with call := .accept lid }, {})
  | .unlisten lid => (n.setListen lid { n.listen lid with active := false }, {})
  | _ => (n, {})

/-- One step of the network stack. -/
def netStep (n : Net) : NetOp → Net × NetOut
  | .poll now pkt => poll n now pkt
  | .timeout => (timeout n, {})
  | .tick now => netTcpTick n now
  | .resolved now mac => connectResolved n now mac
  | op =>
      match n.call with
      | .idle => callStep n op
      | _ => (n, {})

theorem freeSlot_unused {n : Net} {i : Slot} (h : freeSlot n = some i) :
    (n.conns i).used = false := by
  have := List.find?_some h
  simpa using this

end OriaOS.Tcp
