import OriaOS.Lib.Reading
import OriaOS.Tcp.Table

/-!
# Where received frames are read

`net_process` and `tcp_rx_process` as computations that read a frame and the address it is
compared with. On a segment they end with what the connection table makes of it. The lengths in
the headers are compared with one another and not with the length of the frame, so a frame is
read inside its length exactly if the headers, and the payload its connection takes, lie there.
-/

namespace OriaOS.Tcp

open OriaOS.Lib OriaOS.Lib.Reading

/-! ## Frames -/

/-- A byte of the frame, or one of the address `expect_src` points to. -/
inductive Place
  | pkt (i : Nat)
  | expect (i : Nat)
  deriving DecidableEq

abbrev Content := Place → UInt8

/-- What may be read: the frame up to its length, and the address unless it is null. -/
def Place.Readable (len : Nat) (isNull : Bool) : Place → Prop
  | .pkt i => i < len
  | .expect i => isNull = false ∧ i < 4

/-- `mc` out of the frame. -/
def mc (n i : Nat) : Reading Place (Vector UInt8 n) :=
  lend ((List.range' i n).map .pkt) fun mem => Vector.ofFn fun k => mem (.pkt (i + k))

section Compare
variable {n : Nat}

/-- The bytes of the frame from a place on. -/
def inPkt (i : Nat) (k : Fin n) : Reading Place UInt8 := byte (.pkt (i + k))

/-- The bytes `expect_src` points to. -/
def inExpect (k : Fin n) : Reading Place UInt8 := byte (.expect k)

/-- The bytes of a variable. -/
def known (v : Vector UInt8 n) (k : Fin n) : Reading Place UInt8 := pure v[k]

/-- `meq`. -/
def meq (a b : Fin n → Reading Place UInt8) : List (Fin n) → Reading Place Bool
  | [] => pure true
  | k :: ks => do
      let x ← a k
      let y ← b k
      if x ≠ y then pure false else meq a b ks

end Compare

/-- A 16-bit field. -/
def word16 (i : Nat) : Reading Place UInt16 := do
  let a ← byte (.pkt i)
  let b ← byte (.pkt (i + 1))
  pure (a.toUInt16 <<< 8 ||| b.toUInt16)

/-- A 32-bit field. -/
def word32 (i : Nat) : Reading Place UInt32 := do
  let a ← byte (.pkt i)
  let b ← byte (.pkt (i + 1))
  let c ← byte (.pkt (i + 2))
  let d ← byte (.pkt (i + 3))
  pure (a.toUInt32 <<< 24 ||| b.toUInt32 <<< 16 ||| c.toUInt32 <<< 8 ||| d.toUInt32)

/-! ## ARP cache -/

/-- `ARP_CACHE`. -/
abbrev arpCache : Nat := 8

structure ArpEntry where
  ip : Ip
  mac : Mac
  valid : Bool

/-- `arp_cache_put`, whether an entry is free or has the address. -/
def arpHit (e : ArpEntry) (ip : Nat) : Reading Place Bool :=
  if e.valid then meq (known e.ip) (inPkt ip) (List.finRange 4) else pure true

/-- `arp_cache_put`, from the entries on: address and MAC stand in the frame. -/
def arpCachePut (tbl : Fin arpCache → ArpEntry) (ip mac : Nat) :
    List (Fin arpCache) → Reading Place (Fin arpCache → ArpEntry)
  | [] => do
      let a ← mc 4 ip
      let m ← mc 6 mac
      pure (Function.update tbl 0 { tbl 0 with ip := a, mac := m })
  | i :: is => do
      let hit ← arpHit (tbl i) ip
      if hit then do
        let a ← mc 4 ip
        let m ← mc 6 mac
        pure (Function.update tbl i ⟨a, m, true⟩)
      else arpCachePut tbl ip mac is

/-! ## Segments -/

/-- The fields of a TCP header; `doff` is its length in bytes. -/
structure TcpHead where
  srcPort : UInt16
  dstPort : UInt16
  seq : UInt32
  ack : UInt32
  doff : Nat
  flags : UInt8

/-- A segment with this header. -/
def TcpHead.seg (h : TcpHead) (src : Ip) (mac : Mac) (data : Bytes)
    (hlen : data.length ≤ 65535) : Seg where
  srcIp := src
  srcMac := mac
  srcPort := h.srcPort
  dstPort := h.dstPort
  seq := h.seq
  ack := h.ack
  flags := h.flags
  data := data
  length_le := hlen

/-- The segment where only the header is looked at. -/
def TcpHead.bare (h : TcpHead) : Seg :=
  h.seg (Vector.replicate 4 0) (Vector.replicate 6 0) [] (Nat.zero_le _)

/-- `tcp_rx_process`, the fields of the header. -/
def headReading (t : Nat) : Reading Place TcpHead := do
  let rsp ← word16 t
  let rdp ← word16 (t + 2)
  let sseq ← word32 (t + 4)
  let sack ← word32 (t + 8)
  let off ← byte (.pkt (t + 12))
  let flags ← byte (.pkt (t + 13))
  pure ⟨rsp, rdp, sseq, sack, (off >>> 4).toNat * 4, flags⟩

/-- `tcp_rx_push` out of the frame. -/
def tcpRxPushReading (c : TcpConn) (data : Nat) : Nat → Reading Place TcpConn
  | 0 => pure c
  | n + 1 =>
      if c.rx.Full then pure c
      else do
        let b ← byte (.pkt data)
        tcpRxPushReading { c with rx := c.rx.push b } (data + 1) n

/-- A segment ahead of the stream is copied if the slot is empty. -/
def keepOooReading (c : TcpConn) (seq : UInt32) (data dlen : Nat) (h : dlen ≤ txSize) :
    Reading Place TcpConn :=
  if c.oooBuf.val.length = 0 then do
    let d ← mc dlen data
    pure { c with oooBuf := ⟨d.toList, d.length_toList.trans_le h⟩, oooSeq := seq }
  else pure c

/-- `tcp_rx_process`, payload part. -/
def rxDataReading (c : TcpConn) (now : UInt32) (h : TcpHead) (data dlen : Nat) :
    Reading Place (TcpConn × List TxSeg) :=
  let c := { c with lastRxTick := now, kaProbes := 0, kaNextTick := now + keepaliveIdle }
  if h.seq = c.rcvNxt then do
    let c ← tcpRxPushReading c data dlen
    let c := mergeOoo { c with rcvNxt := c.rcvNxt + UInt32.ofNat dlen }
    pure (c, [ackNow c])
  else if hs : c.rcvNxt < h.seq ∧ dlen ≤ txSize then do
    let c ← keepOooReading c h.seq data dlen hs.2
    pure (c, [ackNow c])
  else pure (c, [ackNow c])

/-- Payload is accepted in ESTABLISHED. -/
def rxAcceptReading (c : TcpConn) (now : UInt32) (h : TcpHead) (data dlen : Nat) :
    Reading Place (TcpConn × List TxSeg) :=
  if 0 < dlen ∧ c.state = .established then rxDataReading c now h data dlen else pure (c, [])

/-- The branch for ESTABLISHED, FIN_WAIT1 and FIN_WAIT2. -/
def rxOpenReading (c : TcpConn) (now : UInt32) (h : TcpHead) (data dlen : Nat) :
    Reading Place (TcpConn × List TxSeg) := do
  let c₁ := if h.bare.has ACK then rxAck c h.ack else c
  let r₂ ← rxAcceptReading c₁ now h data dlen
  let r₃ := if h.bare.has FIN then rxFin r₂.1 else (r₂.1, [])
  pure (r₃.1, r₂.2 ++ r₃.2)

/-- `tcp_rx_process` on the connection a segment matches. -/
def rxConnReading (c : TcpConn) (now : UInt32) (h : TcpHead) (data dlen : Nat) :
    Reading Place (TcpConn × List TxSeg) :=
  if h.bare.has RST then pure ({ release c with rstRecv := true }, [])
  else
    match c.state with
    | .synSent => pure (rxSynSent c h.bare)
    | .established | .finWait1 | .finWait2 => rxOpenReading c now h data dlen
    | .lastAck => if h.bare.has ACK then pure (release c, []) else pure (c, [])
    | .closed | .closeWait | .timeWait => pure (c, [])

/-- `tcp_rx_process`, the search for the connection; the sender's address stands in the
frame. -/
def findConnReading (n : Net) (h : TcpHead) (src : Nat) : List Slot → Reading Place (Option Slot)
  | [] => pure none
  | i :: is =>
      let c := n.conns i
      if c.used = true ∧ c.srcPort = h.dstPort ∧ c.dstPort = h.srcPort then do
        let same ← meq (known c.dstIp) (inPkt src) (List.finRange 4)
        if same then pure (some i) else findConnReading n h src is
      else findConnReading n h src is

/-- `tcp_rx_process`, the part for a SYN: a listener on the port copies the sender's address and
MAC, whether it opens a connection or refuses. -/
def rxListenReading (n : Net) (now : UInt32) (h : TcpHead) (ip : Nat) :
    Reading Place (Net × NetOut) :=
  if h.flags &&& (SYN ||| ACK) = SYN then
    match findListen n h.dstPort with
    | none => pure (n, {})
    | some _ => do
        let src ← mc 4 (ip + 12)
        let mac ← mc 6 (ip - 14 + 6)
        pure (rxListen n now (h.seg src mac [] (Nat.zero_le _)))
  else pure (n, {})

/-- `tcp_rx_process`. -/
def tcpRxProcessReading (n : Net) (now : UInt32) (ip t total : Nat) :
    Reading Place (Net × NetOut) := do
  let h ← headReading t
  let dlen := total - h.doff
  let found ← findConnReading n h (ip + 12) (List.finRange maxConn)
  match found with
  | none => rxListenReading n now h ip
  | some i => do
      let r ← rxConnReading (n.conns i) now h (t + h.doff) dlen
      if h.bare.has RST then pure (n.setConn i r.1, { tx := r.2 })
      else do
        let q ← rxListenReading (n.setConn i r.1) now h ip
        pure (q.1, { q.2 with tx := r.2 ++ q.2.tx })

/-! ## `net_process` -/

/-- What `net_process` works on. -/
structure Host where
  tcp : Net
  arp : Fin arpCache → ArpEntry
  myIp : Ip

/-- What it sends and returns: segments, an ARP reply, and the round trip time it stores. -/
structure FrameOut where
  tcp : NetOut := {}
  arpReply : Option (Mac × Ip) := none
  rtt : Option UInt16 := none
  ret : Int := 0

/-- `net_process`, ARP. -/
def arpReading (st : Host) : Reading Place (Host × FrameOut) := do
  let oper ← word16 20
  if oper = 2 then do
    let arp ← arpCachePut st.arp 28 22 (List.finRange arpCache)
    pure ({ st with arp := arp }, {})
  else if oper = 1 then do
    let mine ← meq (inPkt 38) (known st.myIp) (List.finRange 4)
    if mine then do
      let mac ← mc 6 22
      let ip ← mc 4 28
      pure (st, { arpReply := some (mac, ip) })
    else pure (st, {})
  else pure (st, {})

/-- `net_process`, IPv4. The time is stored if the caller asks for it. -/
def ipReading (st : Host) (now : UInt32) (rttOut : Bool) (sendTick : UInt32) :
    Reading Place (Host × FrameOut) := do
  let version ← byte (.pkt 14)
  let ihl := (version &&& 0xF).toNat * 4
  let proto ← byte (.pkt 23)
  let ipTotal ← word16 16
  let payLen := ipTotal.toNat - ihl
  let arp ← arpCachePut st.arp 26 6 (List.finRange arpCache)
  let st := { st with arp := arp }
  if proto = 1 ∧ 8 ≤ payLen then do
    let type ← byte (.pkt (14 + ihl))
    if type = 0 then do
      let same ← meq (inPkt 26) inExpect (List.finRange 4)
      if same then
        pure (st, { ret := 1, rtt := if rttOut then some (now - sendTick).toUInt16 else none })
      else pure (st, {})
    else pure (st, {})
  else if proto = 6 ∧ 20 ≤ payLen then do
    let r ← tcpRxProcessReading st.tcp now 14 (14 + ihl) payLen
    pure ({ st with tcp := r.1 }, { tcp := r.2 })
  else pure (st, {})

/-- `net_process`. -/
def netProcessReading (st : Host) (now : UInt32) (len : Nat) (rttOut : Bool)
    (sendTick : UInt32) : Reading Place (Host × FrameOut) :=
  if len < 14 then pure (st, {})
  else do
    let etype ← word16 12
    if etype = 0x0806 ∧ 42 ≤ len then arpReading st
    else if etype = 0x0800 ∧ 34 ≤ len then ipReading st now rttOut sendTick
    else pure (st, {})

/-! ## What the bytes say -/

def word16At (mem : Content) (i : Nat) : UInt16 :=
  (mem (.pkt i)).toUInt16 <<< 8 ||| (mem (.pkt (i + 1))).toUInt16

def word32At (mem : Content) (i : Nat) : UInt32 :=
  (mem (.pkt i)).toUInt32 <<< 24 ||| (mem (.pkt (i + 1))).toUInt32 <<< 16 |||
    (mem (.pkt (i + 2))).toUInt32 <<< 8 ||| (mem (.pkt (i + 3))).toUInt32

/-- The bytes that stand in the frame. -/
def vectorAt (mem : Content) (n i : Nat) : Vector UInt8 n :=
  Vector.ofFn fun k => mem (.pkt (i + k))

/-- The header that stands in the frame. -/
def headAt (mem : Content) (t : Nat) : TcpHead where
  srcPort := word16At mem t
  dstPort := word16At mem (t + 2)
  seq := word32At mem (t + 4)
  ack := word32At mem (t + 8)
  doff := (mem (.pkt (t + 12)) >>> 4).toNat * 4
  flags := mem (.pkt (t + 13))

/-- The segment of `total` bytes that stands in the frame. -/
def segAt (mem : Content) (ip t total : Nat) (htotal : total ≤ 65535) : Seg :=
  (headAt mem t).seg (vectorAt mem 4 (ip + 12)) (vectorAt mem 6 (ip - 14 + 6))
    (vectorAt mem (total - (headAt mem t).doff) (t + (headAt mem t).doff)).toList
    (by
      rw [Vector.length_toList]
      omega)

/-- The header length of the IPv4 packet. -/
def ihlAt (mem : Content) : Nat := (mem (.pkt 14) &&& 0xF).toNat * 4

/-- The payload length by the IPv4 header. -/
def payLenAt (mem : Content) : Nat := (word16At mem 16).toNat - ihlAt mem

theorem payLenAt_le (mem : Content) : payLenAt mem ≤ 65535 := by
  have := (word16At mem 16).toNat_lt
  unfold payLenAt
  omega

/-- How many bytes of a payload are copied: in order what the ring has room for, ahead of the
stream all if the slot is empty. -/
def copied (c : TcpConn) (seq : UInt32) (dlen : Nat) : Nat :=
  if seq = c.rcvNxt then min dlen (rxSize - 1 - c.rx.count)
  else if c.rcvNxt < seq ∧ dlen ≤ txSize ∧ c.oooBuf.val.length = 0 then dlen
  else 0

/-- How many bytes of its payload a connection takes out of a segment. -/
def taken (c : TcpConn) (s : Seg) : Nat :=
  if s.has RST ∨ c.state ≠ .established then 0 else copied c s.seq s.data.length

/-- How many bytes of its payload are taken out of a segment. -/
def takenBy (n : Net) (s : Seg) : Nat :=
  match findConn n s with
  | none => 0
  | some i => taken (n.conns i) s

/-- An ICMP message that has its type in the frame; and if it is an echo reply, the address is
not null. -/
structure IcmpInside (len : Nat) (isNull : Bool) (mem : Content) : Prop where
  type : 14 + ihlAt mem < len
  reply : mem (.pkt (14 + ihlAt mem)) = 0 → isNull = false

/-- A segment that has fourteen bytes of its header in the frame, and the payload that is
taken. -/
structure SegmentInside (n : Net) (len : Nat) (mem : Content) : Prop where
  header : 14 + ihlAt mem + 14 ≤ len
  payload :
    let m := takenBy n (segAt mem 14 (14 + ihlAt mem) (payLenAt mem) (payLenAt_le mem))
    m = 0 ∨ 14 + ihlAt mem + (headAt mem (14 + ihlAt mem)).doff + m ≤ len

/-- A frame that is no IPv4 packet, or one whose ICMP message or segment is inside. -/
structure FrameInside (n : Net) (len : Nat) (isNull : Bool) (mem : Content) : Prop where
  icmp : word16At mem 12 = 0x0800 → 34 ≤ len → mem (.pkt 23) = 1 → 8 ≤ payLenAt mem →
    IcmpInside len isNull mem
  tcp : word16At mem 12 = 0x0800 → 34 ≤ len → mem (.pkt 23) = 6 → 20 ≤ payLenAt mem →
    SegmentInside n len mem

/-! ## Where the parts read, and what they end with -/

section Parts
variable {n i len : Nat} {isNull : Bool} {mem : Content} {P : Place → Prop}

@[simp] theorem value_mc : (mc n i).value mem = some (vectorAt mem n i) := rfl

@[simp] theorem value_word16 : (word16 i).value mem = some (word16At mem i) := rfl

@[simp] theorem value_headReading : (headReading i).value mem = some (headAt mem i) := rfl

@[simp] theorem stays_word16_bind {β : Type} {f : UInt16 → Reading Place β} :
    Stays P (word16 i >>= f) mem ↔
      (P (.pkt i) ∧ P (.pkt (i + 1))) ∧ Stays P (f (word16At mem i)) mem := by
  simp [stays_bind, word16, word16At]

theorem stays_mc : Stays (Place.Readable len isNull) (mc n i) mem ↔ n = 0 ∨ i + n ≤ len := by
  rw [mc, stays_lend, List.forall_mem_map]
  exact range'_below

theorem stays_headReading :
    Stays (Place.Readable len isNull) (headReading i) mem ↔ i + 14 ≤ len := by
  simp only [headReading, word16, word32, stays_bind, stays_byte, stays_pure]
  simp [Place.Readable]
  omega

/-- `meq` compares. -/
theorem value_meq {a b : Fin n → Reading Place UInt8} {f g : Fin n → UInt8}
    (ha : ∀ k, (a k).value mem = some (f k)) (hb : ∀ k, (b k).value mem = some (g k))
    (ks : List (Fin n)) : (meq a b ks).value mem = some (decide (∀ k ∈ ks, f k = g k)) := by
  induction ks with
  | nil => simp [meq]
  | cons k ks ih =>
      rw [meq]
      simp only [value_bind, ha, hb, Option.bind_some, value_ite, value_pure, ih,
        List.forall_mem_cons]
      by_cases h : f k = g k
      · simp [h]
      · simp [h]

/-- `meq` reads no byte that is not compared. -/
theorem stays_meq {a b : Fin n → Reading Place UInt8} (ha : ∀ k, Stays P (a k) mem)
    (hb : ∀ k, Stays P (b k) mem) (ks : List (Fin n)) : Stays P (meq a b ks) mem := by
  induction ks with
  | nil => exact stays_pure _
  | cons k ks ih =>
      rw [meq, stays_bind]
      refine ⟨ha k, fun x _ => ?_⟩
      rw [stays_bind]
      refine ⟨hb k, fun y _ => ?_⟩
      rw [stays_ite]
      exact ⟨fun _ => stays_pure _, fun _ => ih⟩

theorem stays_inPkt (h : i + n ≤ len) (k : Fin n) :
    Stays (Place.Readable len isNull) (inPkt i k) mem := by
  have hk := k.isLt
  rw [inPkt, stays_byte, Place.Readable]
  omega

/-- An address that is known against one in the frame. -/
theorem ends_meq_known (ip : Ip) (h : i + 4 ≤ len) :
    Ends (Place.Readable len isNull) mem (meq (known ip) (inPkt i) (List.finRange 4))
      fun same => same = decide (ip = vectorAt mem 4 i) := by
  refine ⟨stays_meq (fun _ => stays_pure _) (stays_inPkt h) _, ?_⟩
  rw [value_meq (f := fun k => ip[k]) (g := fun k => mem (.pkt (i + k))) (fun _ => rfl)
    (fun _ => rfl)]
  apply Returns.some
  rw [decide_eq_decide]
  constructor
  · intro heq
    apply Vector.ext
    intro k hk
    simpa [vectorAt] using heq ⟨k, hk⟩ (List.mem_finRange _)
  · rintro rfl k -
    simp [vectorAt]

/-- The ARP cache is filled from addresses in the frame. -/
theorem ends_arpCachePut (tbl : Fin arpCache → ArpEntry) {ip mac : Nat} (hip : ip + 4 ≤ len)
    (hmac : mac + 6 ≤ len) (is : List (Fin arpCache)) :
    Ends (Place.Readable len isNull) mem (arpCachePut tbl ip mac is) fun _ => True := by
  have hcopy : ∀ n i, i + n ≤ len →
      Ends (Place.Readable len isNull) mem (mc n i) fun _ => True :=
    fun n i h => ⟨stays_mc.mpr (Or.inr h), Returns.some trivial⟩
  induction is with
  | nil =>
      exact (hcopy 4 ip hip).bind fun _ _ => (hcopy 6 mac hmac).bind fun _ _ => Ends.pure trivial
  | cons i is ih =>
      rw [arpCachePut]
      have hhit : Ends (Place.Readable len isNull) mem (arpHit (tbl i) ip) fun _ => True :=
        Ends.ite (fun _ => (ends_meq_known _ hip).mono fun _ _ => trivial)
          fun _ => Ends.pure trivial
      refine hhit.bind fun hit _ => ?_
      apply Ends.ite
      · intro _
        exact (hcopy 4 ip hip).bind fun _ _ => (hcopy 6 mac hmac).bind fun _ _ => Ends.pure trivial
      · intro _
        exact ih

end Parts

section Segments
variable {n : Net} {c : TcpConn} {now : UInt32} {h : TcpHead} {s : Seg} {data dlen len : Nat}
  {isNull : Bool} {mem : Content}

/-- The bytes of a payload. -/
abbrev payloadAt (mem : Content) (data dlen : Nat) : Bytes := (vectorAt mem dlen data).toList

theorem payloadAt_succ (mem : Content) (data n : Nat) :
    payloadAt mem data (n + 1) = mem (.pkt data) :: payloadAt mem (data + 1) n := by
  rw [payloadAt, payloadAt, vectorAt, vectorAt, Vector.toList_ofFn, Vector.toList_ofFn,
    List.ofFn_succ]
  simp only [Fin.val_zero, Nat.add_zero, Fin.val_succ, Nat.add_assoc, Nat.add_comm 1]

/-- Pushing out of the frame is pushing the payload. -/
theorem value_tcpRxPushReading (c : TcpConn) (data n : Nat) :
    (tcpRxPushReading c data n).value mem = some (tcpRxPush c (payloadAt mem data n)) := by
  induction n generalizing c data with
  | zero => rfl
  | succ n ih =>
      rw [tcpRxPushReading, payloadAt_succ, tcpRxPush, Ring.pushAll]
      by_cases hfull : c.rx.Full
      · rw [if_pos hfull, if_pos hfull]
        rfl
      · rw [if_neg hfull, if_neg hfull, value_bind, value_byte, Option.bind_some, ih]
        rfl

/-- As many bytes are read as the ring has room for. -/
theorem stays_tcpRxPushReading (c : TcpConn) (data n : Nat) :
    Stays (Place.Readable len isNull) (tcpRxPushReading c data n) mem ↔
      min n (rxSize - 1 - c.rx.count) = 0 ∨ data + min n (rxSize - 1 - c.rx.count) ≤ len := by
  induction n generalizing c data with
  | zero => simp [tcpRxPushReading]
  | succ n ih =>
      rw [tcpRxPushReading]
      have hcount := c.rx.count_lt
      by_cases hfull : c.rx.Full
      · have := c.rx.full_iff.mp hfull
        rw [if_pos hfull]
        exact iff_of_true (stays_pure _) (Or.inl (by omega))
      · have hroom := mt c.rx.full_iff.mpr hfull
        rw [if_neg hfull, stays_byte_bind, ih, Ring.push, if_neg hfull, Ring.count_write hfull]
        change data < len ∧ _ ↔ _
        omega

/-- The segment is kept as if it were given. -/
theorem value_keepOooReading (c : TcpConn) (s : Seg) (hs : s.data = payloadAt mem data dlen)
    (hlen : dlen ≤ txSize) (hlen' : s.data.length ≤ txSize) :
    (keepOooReading c s.seq data dlen hlen).value mem = some (keepOoo c s hlen') := by
  rw [keepOooReading, keepOoo]
  split
  · simp only [value_bind, value_mc, Option.bind_some, value_pure, hs]
  · rfl

/-- A segment is kept only as a whole. -/
theorem stays_keepOooReading (c : TcpConn) (seq : UInt32) (hlen : dlen ≤ txSize) :
    Stays (Place.Readable len isNull) (keepOooReading c seq data dlen hlen) mem ↔
      (c.oooBuf.val.length = 0 → dlen = 0 ∨ data + dlen ≤ len) := by
  rw [keepOooReading, stays_ite]
  constructor
  · rintro ⟨h, -⟩ hempty
    exact stays_mc.mp (stays_bind.mp (h hempty)).1
  · intro h
    refine ⟨fun hempty => ?_, fun _ => stays_pure _⟩
    exact stays_bind.mpr ⟨stays_mc.mpr (h hempty), fun _ _ => stays_pure _⟩

/-- A segment with this header, whose payload stands in the frame. -/
structure SegFrame (mem : Content) (h : TcpHead) (data dlen : Nat) (s : Seg) : Prop where
  seq : h.seq = s.seq
  ack : h.ack = s.ack
  flags : h.flags = s.flags
  srcPort : h.srcPort = s.srcPort
  dstPort : h.dstPort = s.dstPort
  payload : payloadAt mem data dlen = s.data
  length : dlen = s.data.length

/-- The payload part does what it does with the payload. -/
theorem value_rxDataReading (c : TcpConn) (now : UInt32) (hs : SegFrame mem h data dlen s) :
    (rxDataReading c now h data dlen).value mem = some (rxData c now s) := by
  obtain rfl := hs.length
  by_cases heq : s.seq = c.rcvNxt
  · simp only [rxDataReading, rxData, hs.seq, if_pos heq, value_bind, value_tcpRxPushReading,
      Option.bind_some, value_pure, hs.payload]
  · simp only [rxDataReading, rxData, hs.seq, if_neg heq]
    split
    · rename_i hahead
      rw [value_bind, value_keepOooReading _ s hs.payload.symm _ hahead.2]
      rfl
    · rfl

/-- A flag of the header is a flag of the segment. -/
theorem SegFrame.has_iff (hs : SegFrame mem h data dlen s) (f : UInt8) :
    h.bare.has f ↔ s.has f := by
  rw [Seg.has, Seg.has, ← hs.flags]
  rfl

theorem value_rxAcceptReading (c : TcpConn) (now : UInt32) (hs : SegFrame mem h data dlen s) :
    (rxAcceptReading c now h data dlen).value mem
      = some (if 0 < s.data.length ∧ c.state = .established then rxData c now s else (c, [])) := by
  rw [rxAcceptReading, value_ite, value_rxDataReading c now hs, value_pure, hs.length,
    apply_ite some]

/-- `tcp_rx_process` on a connection ends as if the segment were given. -/
theorem value_rxConnReading (c : TcpConn) (now : UInt32) (hs : SegFrame mem h data dlen s) :
    (rxConnReading c now h data dlen).value mem = some (rxConn c now s) := by
  have hopen : (rxOpenReading c now h data dlen).value mem = some (rxOpen c now s) := by
    rw [rxOpenReading, rxOpen]
    dsimp only
    rw [value_bind, value_rxAcceptReading _ now hs, Option.bind_some, value_pure,
      if_congr (hs.has_iff ACK) rfl rfl, hs.ack, if_congr (hs.has_iff FIN) rfl rfl]
  have hsyn : rxSynSent c h.bare = rxSynSent c s := by
    rw [rxSynSent, rxSynSent, ← hs.flags, ← hs.seq, ← hs.ack]
    rfl
  rw [rxConnReading, rxConn, value_ite, if_congr (hs.has_iff RST) rfl rfl, value_pure]
  split
  · rfl
  · cases c.state with
    | synSent => exact congrArg some hsyn
    | established | finWait1 | finWait2 => exact hopen
    | lastAck =>
        dsimp only
        rw [value_ite, if_congr (hs.has_iff ACK) rfl rfl]
        split <;> rfl
    | closed | closeWait | timeWait => rfl

/-- The acknowledgement part does not change what payload is accepted. -/
theorem rxAck_same (c : TcpConn) (sack : UInt32) :
    (rxAck c sack).rx = c.rx ∧ (rxAck c sack).rcvNxt = c.rcvNxt ∧
      (rxAck c sack).oooBuf = c.oooBuf ∧
      ((rxAck c sack).state = .established ↔ c.state = .established) := by
  obtain ⟨buf, nxt, st, heq, hst⟩ := rxAck_frame c sack
  rw [heq]
  refine ⟨rfl, rfl, rfl, ?_⟩
  rcases hst with rfl | ⟨hfin, rfl⟩
  · rfl
  · simp [hfin]

/-- The payload part reads what it copies. -/
theorem stays_rxDataReading (c : TcpConn) (now : UInt32) :
    Stays (Place.Readable len isNull) (rxDataReading c now h data dlen) mem ↔
      copied c h.seq dlen = 0 ∨ data + copied c h.seq dlen ≤ len := by
  rw [copied]
  by_cases heq : h.seq = c.rcvNxt
  · simp only [rxDataReading, if_pos heq, stays_bind, stays_tcpRxPushReading, stays_pure,
      implies_true, and_true]
  · simp only [rxDataReading, if_neg heq]
    by_cases hahead : c.rcvNxt < h.seq ∧ dlen ≤ txSize
    · rw [dif_pos hahead, stays_bind, stays_keepOooReading]
      by_cases hempty : c.oooBuf.val.length = 0
      · simp [hahead, hempty]
      · simp [hempty]
    · rw [dif_neg hahead, if_neg fun h => hahead ⟨h.1, h.2.1⟩]
      exact iff_of_true (stays_pure _) (Or.inl rfl)

theorem copied_zero (c : TcpConn) (seq : UInt32) : copied c seq 0 = 0 := by
  rw [copied]
  split
  · exact Nat.zero_min _
  · split <;> rfl

theorem stays_rxAcceptReading (c : TcpConn) (now : UInt32) :
    Stays (Place.Readable len isNull) (rxAcceptReading c now h data dlen) mem ↔
      (c.state = .established → copied c h.seq dlen = 0 ∨ data + copied c h.seq dlen ≤ len) := by
  rw [rxAcceptReading]
  by_cases hest : c.state = .established
  · rcases Nat.eq_zero_or_pos dlen with rfl | hpos
    · simp [copied_zero]
    · rw [if_pos ⟨hpos, hest⟩, stays_rxDataReading]
      simp [hest]
  · rw [if_neg fun h => hest h.2]
    simp [hest]

/-- A connection reads what it takes. -/
theorem stays_rxConnReading (c : TcpConn) (now : UInt32) (hs : SegFrame mem h data dlen s) :
    Stays (Place.Readable len isNull) (rxConnReading c now h data dlen) mem ↔
      taken c s = 0 ∨ data + taken c s ≤ len := by
  have hopen : Stays (Place.Readable len isNull) (rxOpenReading c now h data dlen) mem ↔
      (c.state = .established → copied c h.seq dlen = 0 ∨ data + copied c h.seq dlen ≤ len) := by
    have hacked : ∀ c' : TcpConn, c'.rx = c.rx ∧ c'.rcvNxt = c.rcvNxt ∧ c'.oooBuf = c.oooBuf ∧
        (c'.state = .established ↔ c.state = .established) →
        (Stays (Place.Readable len isNull) (rxAcceptReading c' now h data dlen) mem ↔
          (c.state = .established →
            copied c h.seq dlen = 0 ∨ data + copied c h.seq dlen ≤ len)) := by
      rintro c' ⟨hrx, hnxt, hooo, hst⟩
      have hcopied : copied c' h.seq dlen = copied c h.seq dlen := by
        rw [copied, copied, hrx, hnxt, hooo]
      rw [stays_rxAcceptReading, hst, hcopied]
    rw [rxOpenReading]
    dsimp only
    rw [stays_bind, hacked]
    · simp
    · split
      · exact rxAck_same c h.ack
      · exact ⟨rfl, rfl, rfl, Iff.rfl⟩
  rw [rxConnReading, taken, ← hs.seq, ← hs.length, stays_ite, hs.has_iff RST]
  by_cases hrst : s.has RST
  · simp [hrst]
  · simp only [hrst, false_implies, not_false_eq_true, forall_const, true_and, false_or]
    cases hst : c.state with
    | established => simp [hopen, hst]
    | finWait1 | finWait2 => simp [hopen, hst]
    | lastAck =>
        simp only [stays_ite, stays_pure]
        simp
    | synSent | closed | closeWait | timeWait => simp

/-- The search finds the connection. -/
theorem ends_findConnReading (n : Net) {src : Nat} (hsrc : src + 4 ≤ len)
    (hdst : h.dstPort = s.dstPort) (hport : h.srcPort = s.srcPort)
    (hip : s.srcIp = vectorAt mem 4 src) (is : List Slot) :
    Ends (Place.Readable len isNull) mem (findConnReading n h src is)
      fun found => found = is.find? fun i => Matches (n.conns i) s := by
  induction is with
  | nil => exact Ends.pure rfl
  | cons i is ih =>
      rw [findConnReading, List.find?_cons, hdst, hport]
      have hmatch : Matches (n.conns i) s ↔ ((n.conns i).used = true ∧
          (n.conns i).srcPort = s.dstPort ∧ (n.conns i).dstPort = s.srcPort) ∧
          (n.conns i).dstIp = vectorAt mem 4 src := by
        rw [Matches, hip, and_assoc, and_assoc]
      apply Ends.ite
      · intro hports
        apply (ends_meq_known (n.conns i).dstIp hsrc).bind
        rintro same rfl
        apply Ends.ite
        · intro hsame
          apply Ends.pure
          rw [decide_eq_true (hmatch.mpr ⟨hports, of_decide_eq_true hsame⟩)]
        · intro hsame
          rw [decide_eq_false fun hm => hsame (decide_eq_true (hmatch.mp hm).2)]
          exact ih
      · intro hports
        rw [decide_eq_false fun hm => hports (hmatch.mp hm).1]
        exact ih

/-- The part for a SYN reads addresses in front of the segment. -/
theorem ends_rxListenReading (n : Net) (now : UInt32) {ip : Nat} (hip : 14 ≤ ip)
    (hlen : ip + 16 ≤ len) (hs : SegFrame mem h data dlen s)
    (hsrc : s.srcIp = vectorAt mem 4 (ip + 12)) (hmac : s.srcMac = vectorAt mem 6 (ip - 14 + 6)) :
    Ends (Place.Readable len isNull) mem (rxListenReading n now h ip)
      fun r => r = rxListen n now s := by
  have hseg : rxListen n now (h.seg s.srcIp s.srcMac [] (Nat.zero_le _)) = rxListen n now s := by
    simp only [rxListen, rstReply, openPassive, TcpHead.seg, hs.seq, hs.flags, hs.srcPort,
      hs.dstPort]
  rw [rxListenReading]
  apply Ends.ite
  · intro hsyn
    cases hfound : findListen n h.dstPort with
    | none =>
        apply Ends.pure
        rw [rxListen, ← hs.flags, if_pos hsyn, ← hs.dstPort, hfound]
    | some l =>
        have hip4 : Ends (Place.Readable len isNull) mem (mc 4 (ip + 12)) (· = s.srcIp) :=
          ⟨stays_mc.mpr (Or.inr (by omega)), Returns.some hsrc.symm⟩
        have hmac6 : Ends (Place.Readable len isNull) mem (mc 6 (ip - 14 + 6)) (· = s.srcMac) :=
          ⟨stays_mc.mpr (Or.inr (by omega)), Returns.some hmac.symm⟩
        apply hip4.bind
        rintro _ rfl
        apply hmac6.bind
        rintro _ rfl
        exact Ends.pure hseg
  · intro hsyn
    apply Ends.pure
    rw [rxListen, ← hs.flags, if_neg hsyn]

end Segments

section Whole
variable {n : Net} {now : UInt32} {ip t total len : Nat} {isNull : Bool} {mem : Content}

theorem segAt_frame (htotal : total ≤ 65535) :
    SegFrame mem (headAt mem t) (t + (headAt mem t).doff) (total - (headAt mem t).doff)
      (segAt mem ip t total htotal) :=
  ⟨rfl, rfl, rfl, rfl, rfl, rfl, Vector.length_toList.symm⟩

/-- `tcp_rx_process` ends as on the segment that stands in the frame, and reads the header and
the bytes that are taken. -/
theorem tcpRxProcessReading_spec (n : Net) (now : UInt32) (hip : 14 ≤ ip) (hlen : ip + 16 ≤ len)
    (htotal : total ≤ 65535) :
    (tcpRxProcessReading n now ip t total).value mem
        = some (tcpRxProcess n now (segAt mem ip t total htotal)) ∧
      (Stays (Place.Readable len isNull) (tcpRxProcessReading n now ip t total) mem ↔
        t + 14 ≤ len ∧ (takenBy n (segAt mem ip t total htotal) = 0 ∨
          t + (headAt mem t).doff + takenBy n (segAt mem ip t total htotal) ≤ len)) := by
  have hs : SegFrame mem _ _ _ (segAt mem ip t total htotal) := segAt_frame htotal
  generalize hseg : segAt mem ip t total htotal = s at hs ⊢
  have hsrc : s.srcIp = vectorAt mem 4 (ip + 12) := by rw [← hseg]; rfl
  have hmac : s.srcMac = vectorAt mem 6 (ip - 14 + 6) := by rw [← hseg]; rfl
  have hfind : Ends (Place.Readable len isNull) mem
      (findConnReading n (headAt mem t) (ip + 12) (List.finRange maxConn)) _ :=
    ends_findConnReading n (by omega) hs.dstPort hs.srcPort hsrc (List.finRange maxConn)
  have hlisten : ∀ n, Ends (Place.Readable len isNull) mem
      (rxListenReading n now (headAt mem t) ip) fun r => r = rxListen n now s :=
    fun n => ends_rxListenReading n now hip hlen hs hsrc hmac
  rw [tcpRxProcessReading, takenBy, tcpRxProcess, findConn]
  constructor
  · rw [value_bind, value_headReading, Option.bind_some, value_bind, hfind.value_eq,
      Option.bind_some]
    cases (List.finRange maxConn).find? fun i => Matches (n.conns i) s with
    | none => exact (hlisten n).value_eq
    | some i =>
        dsimp only
        rw [value_bind, value_rxConnReading _ now hs, Option.bind_some, value_ite,
          if_congr (hs.has_iff RST) rfl rfl, value_pure, value_bind, (hlisten _).value_eq]
        split <;> rfl
  · rw [stays_bind_value (value_headReading ..), stays_headReading]
    apply and_congr_right
    intro hhead
    apply hfind.stays_bind
    rintro found rfl
    cases (List.finRange maxConn).find? fun i => Matches (n.conns i) s with
    | none => exact iff_of_true (hlisten n).stays (Or.inl rfl)
    | some i =>
        dsimp only
        rw [stays_bind, stays_rxConnReading _ now hs]
        apply and_iff_left
        intro r hr
        rw [stays_ite]
        refine ⟨fun _ => stays_pure _, fun _ => ?_⟩
        exact stays_bind.mpr ⟨(hlisten _).stays, fun _ _ => stays_pure _⟩

/-- The ARP part reads 42 bytes. -/
theorem stays_arpReading (st : Host) (hlen : 42 ≤ len) :
    Stays (Place.Readable len isNull) (arpReading st) mem := by
  have hword : ∀ i, i + 1 < 42 → Place.Readable len isNull (.pkt i) :=
    fun i hi => show i < len by omega
  have hcopy : ∀ n i, i + n ≤ 42 → Stays (Place.Readable len isNull) (mc n i) mem :=
    fun n i h => stays_mc.mpr (Or.inr (by omega))
  rw [arpReading, stays_word16_bind, stays_ite, stays_ite]
  refine ⟨⟨hword 20 (by decide), hword 21 (by decide)⟩, fun _ => ?_, fun _ => ⟨fun _ => ?_, ?_⟩⟩
  · exact stays_bind.mpr ⟨(ends_arpCachePut _ (by omega) (by omega) _).stays,
      fun _ _ => stays_pure _⟩
  · refine stays_bind.mpr ⟨stays_meq (stays_inPkt (by omega)) (fun _ => stays_pure _) _, ?_⟩
    intro mine _
    rw [stays_ite]
    refine ⟨fun _ => ?_, fun _ => stays_pure _⟩
    refine stays_bind.mpr ⟨hcopy 6 22 (by decide), fun _ _ => ?_⟩
    exact stays_bind.mpr ⟨hcopy 4 28 (by decide), fun _ _ => stays_pure _⟩
  · exact fun _ => stays_pure _

/-- The address is read through exactly if it is compared. -/
theorem stays_meq_expect (hlen : 30 ≤ len) :
    Stays (Place.Readable len isNull) (meq (inPkt 26) inExpect (List.finRange 4)) mem ↔
      isNull = false := by
  constructor
  · intro h
    rw [List.finRange_succ, meq, stays_bind] at h
    have h := (stays_bind.mp (h.2 _ rfl)).1
    rw [inExpect, stays_byte] at h
    exact h.1
  · intro h
    refine stays_meq (stays_inPkt (by omega)) (fun k => ?_) _
    rw [inExpect, stays_byte]
    exact ⟨h, k.isLt⟩

/-- The ICMP part, whatever it returns. -/
theorem stays_icmp {β : Type} {x y z : β} (hlen : 34 ≤ len) :
    Stays (Place.Readable len isNull) (byte (.pkt (14 + ihlAt mem)) >>= fun type =>
        if type = 0 then meq (inPkt 26) inExpect (List.finRange 4) >>= fun same =>
          if same then pure x else pure y
        else pure z) mem ↔ IcmpInside len isNull mem := by
  rw [stays_byte_bind, stays_ite, stays_bind, stays_meq_expect (by omega)]
  constructor
  · rintro ⟨htype, hreply, -⟩
    exact ⟨htype, fun h => (hreply h).1⟩
  · rintro ⟨htype, hreply⟩
    refine ⟨htype, fun h => ⟨hreply h, fun same _ => ?_⟩, fun _ => stays_pure _⟩
    rw [stays_ite]
    exact ⟨fun _ => stays_pure _, fun _ => stays_pure _⟩

/-- The IPv4 part. -/
theorem stays_ipReading (st : Host) (now : UInt32) (rttOut : Bool) (sendTick : UInt32)
    (hlen : 34 ≤ len) :
    Stays (Place.Readable len isNull) (ipReading st now rttOut sendTick) mem ↔
      (mem (.pkt 23) = 1 → 8 ≤ payLenAt mem → IcmpInside len isNull mem) ∧
      (mem (.pkt 23) = 6 → 20 ≤ payLenAt mem → SegmentInside st.tcp len mem) := by
  have hbyte : ∀ i, i < 34 → Place.Readable len isNull (.pkt i) := fun i hi => hi.trans_le hlen
  have harp : Ends (Place.Readable len isNull) mem
      (arpCachePut st.arp 26 6 (List.finRange arpCache)) fun _ => True :=
    ends_arpCachePut st.arp (by omega) (by omega) (List.finRange arpCache)
  rw [ipReading, stays_byte_bind, stays_byte_bind, stays_word16_bind]
  dsimp only
  rw [and_iff_right (hbyte 14 (by decide)), and_iff_right (hbyte 23 (by decide)),
    and_iff_right ⟨hbyte 16 (by decide), hbyte 17 (by decide)⟩]
  apply harp.stays_bind
  intro arp _
  change Stays _ (if mem (.pkt 23) = 1 ∧ 8 ≤ payLenAt mem then _
    else if mem (.pkt 23) = 6 ∧ 20 ≤ payLenAt mem then _ else _) mem ↔ _
  have htcp : Stays (Place.Readable len isNull) (tcpRxProcessReading st.tcp now 14
      (14 + ihlAt mem) (payLenAt mem)) mem ↔ SegmentInside st.tcp len mem := by
    rw [(tcpRxProcessReading_spec st.tcp now (Nat.le_refl 14) (by omega) (payLenAt_le mem)).2]
    exact ⟨fun h => ⟨h.1, h.2⟩, fun h => ⟨h.header, h.payload⟩⟩
  by_cases hicmp : mem (.pkt 23) = 1 ∧ 8 ≤ payLenAt mem
  · rw [if_pos hicmp, forall_prop_of_true hicmp.1, forall_prop_of_true hicmp.2]
    have hnot : ¬ mem (.pkt 23) = 6 := by
      rw [hicmp.1]
      decide
    rw [and_iff_left fun h => absurd h hnot]
    exact stays_icmp hlen
  · rw [if_neg hicmp, and_iff_right fun h h' => absurd ⟨h, h'⟩ hicmp]
    by_cases hseg : mem (.pkt 23) = 6 ∧ 20 ≤ payLenAt mem
    · rw [if_pos hseg, forall_prop_of_true hseg.1, forall_prop_of_true hseg.2, ← htcp]
      exact stays_bind.trans (and_iff_left fun _ _ => stays_pure _)
    · rw [if_neg hseg]
      exact iff_of_true (stays_pure _) fun h h' => absurd ⟨h, h'⟩ hseg

/-- `net_process` reads the frame inside its length, and no null address, exactly if the headers
and what is taken lie there. -/
theorem netProcess_inside_iff (st : Host) (now : UInt32) (len : Nat) (isNull rttOut : Bool)
    (sendTick : UInt32) (mem : Content) :
    Stays (Place.Readable len isNull) (netProcessReading st now len rttOut sendTick) mem ↔
      FrameInside st.tcp len isNull mem := by
  rw [netProcessReading]
  by_cases hlen : len < 14
  · rw [if_pos hlen]
    exact iff_of_true (stays_pure _) ⟨fun _ h => by omega, fun _ h => by omega⟩
  have hetype : Place.Readable len isNull (.pkt 12) ∧ Place.Readable len isNull (.pkt 13) :=
    ⟨show 12 < len by omega, show 13 < len by omega⟩
  rw [if_neg hlen, stays_word16_bind, and_iff_right hetype]
  by_cases harp : word16At mem 12 = 0x0806 ∧ 42 ≤ len
  · have hnot : ¬ word16At mem 12 = 0x0800 := by
      rw [harp.1]
      decide
    rw [if_pos harp]
    exact iff_of_true (stays_arpReading st harp.2)
      ⟨fun h => absurd h hnot, fun h => absurd h hnot⟩
  rw [if_neg harp]
  by_cases hip : word16At mem 12 = 0x0800 ∧ 34 ≤ len
  · rw [if_pos hip, stays_ipReading st now rttOut sendTick hip.2]
    exact ⟨fun h => ⟨fun _ _ => h.1, fun _ _ => h.2⟩,
      fun h => ⟨h.icmp hip.1 hip.2, h.tcp hip.1 hip.2⟩⟩
  · rw [if_neg hip]
    exact iff_of_true (stays_pure _)
      ⟨fun h h' => absurd ⟨h, h'⟩ hip, fun h h' => absurd ⟨h, h'⟩ hip⟩

end Whole

/-- The host after boot. -/
def Host.boot : Host where
  tcp := .boot
  arp := fun _ => ⟨Vector.replicate 4 0, Vector.replicate 6 0, false⟩
  myIp := #v[10, 0, 2, 15]

/-- An echo reply of 84 bytes in a frame of 98. -/
def echoReply : Content
  | .pkt 12 => 0x08
  | .pkt 14 => 0x45
  | .pkt 17 => 84
  | .pkt 23 => 1
  | _ => 0

/-- An echo reply that nobody waits for is compared with a null address. -/
theorem not_every_frame_inside : ¬ ∀ st now len isNull rttOut sendTick mem,
    Stays (Place.Readable len isNull) (netProcessReading st now len rttOut sendTick) mem := by
  intro h
  have hread : .expect 0 ∈ (netProcessReading .boot 0 98 false 0).places echoReply := by
    decide +kernel
  exact absurd (h .boot 0 98 true false 0 echoReply _ hread).1 (by decide)

end OriaOS.Tcp
