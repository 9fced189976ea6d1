import OriaOS.Lib.Bytes
import OriaOS.Lib.OnesComplement
import OriaOS.Tcp.Frames

/-!
# Segments on the wire

The frame that `tcp_tx` builds from a segment. Both of its checksums make the words they cover
sum to all ones, its lengths are those of what is sent, and `net_process` reads the segment back
from it.
-/

namespace OriaOS.Tcp

open OriaOS.Lib

/-! ## Checksums -/

/-- The loop of `inet_cksum` over words; a last byte is the high half of one. -/
def sumWords (sum : UInt32) : Bytes → UInt32
  | [] => sum
  | [a] => sum + a.toUInt32 <<< 8
  | a :: b :: rest => sumWords (sum + (a.toUInt32 <<< 8 ||| b.toUInt32)) rest

/-- The carries of a sum added back. -/
def foldOnce (sum : UInt32) : UInt32 := (sum &&& 0xFFFF : UInt32) + sum >>> 16

theorem toNat_foldOnce (sum : UInt32) :
    (foldOnce sum).toNat = OnesComplement.wrap 16 sum.toNat := by
  have hlow : (sum &&& 0xFFFF : UInt32).toNat = sum.toNat % 2 ^ 16 := by
    rw [UInt32.toNat_and]
    exact Nat.and_two_pow_sub_one_eq_mod sum.toNat 16
  have hhigh : (sum >>> 16).toNat = sum.toNat / 2 ^ 16 := by
    rw [UInt32.toNat_shiftRight]
    exact Nat.shiftRight_eq_div_pow _ _
  have := sum.toNat_lt
  rw [foldOnce, UInt32.toNat_add, hlow, hhigh, OnesComplement.wrap, Nat.mod_eq_of_lt]
  omega

theorem shiftRight_eq_zero_iff (sum : UInt32) : sum >>> 16 = 0 ↔ sum.toNat < 2 ^ 16 := by
  rw [← UInt32.toNat_inj, UInt32.toNat_shiftRight]
  change sum.toNat >>> 16 = 0 ↔ _
  rw [Nat.shiftRight_eq_div_pow]
  omega

/-- The loop that folds the carries. -/
def foldSum (sum : UInt32) : UInt32 := if sum >>> 16 = 0 then sum else foldSum (foldOnce sum)
termination_by sum.toNat
decreasing_by
  rename_i hcarry
  rw [shiftRight_eq_zero_iff] at hcarry
  rw [toNat_foldOnce, OnesComplement.wrap]
  omega

/-- `inet_cksum`. -/
def inetCksum (data : Bytes) : UInt16 := (~~~ foldSum (sumWords 0 data)).toUInt16

/-- `transport_cksum`, the pseudo-header. -/
def pseudoHeader (src dst : Ip) (proto : UInt8) (segLen : UInt16) : Bytes :=
  src.toList ++ dst.toList ++ [0, proto, (segLen >>> 8).toUInt8, (segLen &&& 0xFF).toUInt8]

/-- `transport_cksum`. -/
def transportCksum (src dst : Ip) (proto : UInt8) (seg : Bytes) (segLen : UInt16) : UInt16 :=
  let sum := sumWords 0 (pseudoHeader src dst proto segLen)
  (~~~ foldSum (sumWords sum (seg.take segLen.toNat))).toUInt16

/-! ## Frames -/

/-- What the frames of the stack have in common: its addresses and the next IP identification. -/
structure Sender where
  mac : Mac
  ip : Ip
  ipId : UInt16

/-- The bytes of a 16-bit field. -/
def field16 (x : UInt16) : Bytes := [(x >>> 8).toUInt8, (x &&& 0xFF).toUInt8]

/-- The bytes of a 32-bit field. -/
def field32 (x : UInt32) : Bytes :=
  [(x >>> 24).toUInt8, (x >>> 16).toUInt8, (x >>> 8).toUInt8, (x &&& 0xFF).toUInt8]

/-- `eth_hdr`. -/
def ethHdr (w : Sender) (dst : Mac) (ethertype : UInt16) : Bytes :=
  dst.toList ++ w.mac.toList ++ field16 ethertype

/-- `tcp_tx`, the IP header with its checksum field. -/
def ipHdr (w : Sender) (dst : Ip) (ipTlen ick : UInt16) : Bytes :=
  [0x45, 0x00] ++ field16 ipTlen ++ field16 w.ipId ++ [0, 0, 64, 6] ++ field16 ick ++
    w.ip.toList ++ dst.toList

/-- `tcp_tx`, the TCP header with its checksum field. -/
def tcpHdr (s : TxSeg) (tck : UInt16) : Bytes :=
  field16 s.srcPort ++ field16 s.dstPort ++ field32 s.seq ++ field32 s.ack ++
    [0x50, s.flags, 0xFF, 0xFF] ++ field16 tck ++ [0, 0]

/-- What `tcp_tx` leaves: the frame in `pkt_buf`, how many bytes of it the card is given, and the
next identification. -/
structure TxFrame where
  frame : Bytes
  sent : UInt16
  ipId : UInt16

/-- `tcp_tx`. The checksums are of headers whose checksum field is zero. -/
def tcpTxFrame (w : Sender) (s : TxSeg) : TxFrame :=
  let tcpTlen := 20 + UInt16.ofNat s.data.length
  let ipTlen := 20 + tcpTlen
  let ick := inetCksum (ipHdr w s.dstIp ipTlen 0)
  let tck := transportCksum w.ip s.dstIp 6 (tcpHdr s 0 ++ s.data) tcpTlen
  { frame := ethHdr w s.dstMac 0x0800 ++ ipHdr w s.dstIp ipTlen ick ++ (tcpHdr s tck ++ s.data)
    sent := 14 + 20 + tcpTlen
    ipId := w.ipId + 1 }

/-! ## What a frame should be -/

/-- The 16-bit words of some bytes, the last one filled up with zero. -/
def words : Bytes → List Nat
  | [] => []
  | [a] => [a.toNat * 256]
  | a :: b :: rest => (a.toNat * 256 + b.toNat) :: words rest

/-- The frame as memory. -/
abbrev pktMem (mem : Content) (i : Nat) : UInt8 := mem (.pkt i)

/-- The bytes stand at the start of the frame. -/
def Holds (mem : Content) (frame : Bytes) : Prop := StandAt (pktMem mem) 0 frame

/-- The segment a receiver of the frame should see. -/
def received (w : Sender) (s : TxSeg) (hlen : s.data.length ≤ txSize) : Seg where
  srcIp := w.ip
  srcMac := w.mac
  srcPort := s.srcPort
  dstPort := s.dstPort
  seq := s.seq
  ack := s.ack
  flags := s.flags
  data := s.data
  length_le := hlen.trans (by decide)

/-- `sizeof(pkt_buf)`. -/
abbrev pktBufSize : Nat := 1514

/-- A frame that verifies: it fits the buffer, the card is given all of it, its IP header and its
segment with the pseudo-header sum to all ones, the total length is that of the packet, and
`net_process` takes it for the segment. -/
structure Verifies (w : Sender) (s : TxSeg) (hlen : s.data.length ≤ txSize) (out : TxFrame) :
    Prop where
  room : out.frame.length ≤ pktBufSize
  sent : out.sent.toNat = out.frame.length
  ip : OnesComplement.total 16 (words ((out.frame.drop 14).take 20)) = 0xFFFF
  tcp : OnesComplement.total 16 (words (pseudoHeader w.ip s.dstIp 6
    (UInt16.ofNat (out.frame.drop 34).length) ++ out.frame.drop 34)) = 0xFFFF
  parsed : ∀ mem, Holds mem out.frame →
    word16At mem 12 = 0x0800 ∧ mem (.pkt 23) = 6 ∧
      (word16At mem 16).toNat = (out.frame.drop 14).length ∧
      segAt mem 14 (14 + ihlAt mem) (payLenAt mem) (payLenAt_le mem)
        = received w s hlen

/-! ## The checksums verify -/

section Checksums
variable {l l' : Bytes}

theorem word_toNat (a b : UInt8) : (a.toUInt32 <<< 8 ||| b.toUInt32).toNat
    = a.toNat * 256 + b.toNat := by
  have ha := a.toNat_lt
  rw [UInt32.toNat_or, UInt32.toNat_shiftLeft, UInt8.toNat_toUInt32, UInt8.toNat_toUInt32]
  change a.toNat <<< 8 % 2 ^ 32 ||| b.toNat = _
  rw [Nat.shiftLeft_eq, Nat.mod_eq_of_lt (by omega), ← Nat.shiftLeft_eq,
    ← Nat.shiftLeft_add_eq_or_of_lt b.toNat_lt, Nat.shiftLeft_eq]

theorem lastWord_toNat (a : UInt8) : (a.toUInt32 <<< 8).toNat = a.toNat * 256 := by
  simpa using word_toNat a 0

theorem words_lt (l : Bytes) : ∀ x ∈ words l, x < 2 ^ 16 := by
  induction l using words.induct with
  | case1 => simp [words]
  | case2 a =>
      have := a.toNat_lt
      simp only [words, List.forall_mem_singleton]
      omega
  | case3 a b rest ih =>
      have := a.toNat_lt
      have := b.toNat_lt
      rw [words, List.forall_mem_cons]
      exact ⟨by omega, ih⟩

/-- Words do not straddle an even border. -/
theorem words_append (h : l.length % 2 = 0) (l' : Bytes) :
    words (l ++ l') = words l ++ words l' := by
  induction l using words.induct with
  | case1 => rfl
  | case2 a => simp at h
  | case3 a b rest ih =>
      simp only [List.length_cons] at h
      rw [List.cons_append, List.cons_append, words, words, ih (by omega), List.cons_append]

theorem sumWords_append (h : l.length % 2 = 0) (sum : UInt32) (l' : Bytes) :
    sumWords sum (l ++ l') = sumWords (sumWords sum l) l' := by
  induction l using words.induct generalizing sum with
  | case1 => rfl
  | case2 a => simp at h
  | case3 a b rest ih =>
      simp only [List.length_cons] at h
      rw [List.cons_append, List.cons_append, sumWords, sumWords, ih (by omega)]

/-- At most 65535 for each word. -/
theorem sum_words_le (l : Bytes) : (words l).sum ≤ 65535 * ((l.length + 1) / 2) := by
  induction l using words.induct with
  | case1 => simp [words]
  | case2 a =>
      have := a.toNat_lt
      simp only [words, List.sum_singleton, List.length_singleton]
      omega
  | case3 a b rest ih =>
      have := a.toNat_lt
      have := b.toNat_lt
      simp only [words, List.sum_cons, List.length_cons]
      omega

/-- The accumulator holds the sum of the words, as long as that fits. -/
theorem sumWords_toNat (l : Bytes) (sum : UInt32) (h : sum.toNat + (words l).sum < 2 ^ 32) :
    (sumWords sum l).toNat = sum.toNat + (words l).sum := by
  induction l using words.induct generalizing sum with
  | case1 => rfl
  | case2 a =>
      simp only [words, List.sum_singleton] at h ⊢
      rw [sumWords, UInt32.toNat_add, lastWord_toNat, Nat.mod_eq_of_lt h]
  | case3 a b rest ih =>
      simp only [words, List.sum_cons] at h ⊢
      have hword : (sum + (a.toUInt32 <<< 8 ||| b.toUInt32)).toNat
          = sum.toNat + (a.toNat * 256 + b.toNat) := by
        have hfits : sum.toNat + (a.toNat * 256 + b.toNat) < 2 ^ 32 :=
          (Nat.add_le_add_left (Nat.le_add_right _ _) _).trans_lt h
        rw [UInt32.toNat_add, word_toNat, Nat.mod_eq_of_lt hfits]
      rw [sumWords, ih _ (by rwa [hword, Nat.add_assoc]), hword, Nat.add_assoc]

/-- The folded sum is the residue of the sum. -/
theorem foldSum_toNat (sum : UInt32) :
    (foldSum sum).toNat = OnesComplement.residue 16 sum.toNat := by
  induction sum using foldSum.induct with
  | case1 sum h =>
      rw [foldSum, if_pos h, OnesComplement.residue_of_lt ((shiftRight_eq_zero_iff sum).mp h)]
  | case2 sum h ih =>
      rw [foldSum, if_neg h, ih, toNat_foldOnce, OnesComplement.residue_wrap]

/-- A checksum is the complement of the sum of the words. -/
theorem inetCksum_toNat (h : l.length < 2 ^ 16) :
    (inetCksum l).toNat = OnesComplement.ones 16 - OnesComplement.residue 16 (words l).sum := by
  have hsum := sum_words_le l
  have hres := OnesComplement.residue_lt (w := 16) (by decide) (words l).sum
  have hfold : (foldSum (sumWords 0 l)).toNat = OnesComplement.residue 16 (words l).sum := by
    have hzero : (0 : UInt32).toNat = 0 := rfl
    rw [foldSum_toNat, sumWords_toNat l 0 (by omega), hzero, Nat.zero_add]
  have hnot : UInt32.size - 1 = 65536 * 65535 + 65535 := rfl
  rw [inetCksum, UInt32.toNat_toUInt16, UInt32.toNat_not, hfold, hnot, OnesComplement.ones]
  omega

@[simp] theorem length_field16 (x : UInt16) : (field16 x).length = 2 := rfl

@[simp] theorem length_field32 (x : UInt32) : (field32 x).length = 4 := rfl

/-- A field is the word of its number. -/
theorem words_field16 (x : UInt16) : words (field16 x) = [x.toNat] := by
  have hhigh : (x >>> 8).toUInt8.toNat = x.toNat / 256 := by
    have := x.toNat_lt
    rw [UInt16.toNat_toUInt8, UInt16.toNat_shiftRight]
    change x.toNat >>> 8 % 2 ^ 8 = _
    rw [Nat.shiftRight_eq_div_pow, Nat.mod_eq_of_lt (by omega)]
  have hlow : (x &&& 0xFF).toUInt8.toNat = x.toNat % 256 := by
    rw [UInt16.toNat_toUInt8, UInt16.toNat_and]
    change (x.toNat &&& (2 ^ 8 - 1)) % 2 ^ 8 = _
    rw [Nat.and_two_pow_sub_one_eq_mod, Nat.mod_mod]
  rw [field16, words, hhigh, hlow, words, Nat.div_add_mod']

/-- Bytes with their own checksum in a field that was zero sum to all ones. -/
theorem total_cksum {pre post : Bytes} (hpre : pre.length % 2 = 0)
    (hlen : pre.length + post.length < 2 ^ 15) :
    OnesComplement.total 16
      (words (pre ++ (field16 (inetCksum (pre ++ (field16 0 ++ post))) ++ post))) = 0xFFFF := by
  have hsum : ∀ x, (words (pre ++ (field16 x ++ post))).sum
      = (words pre).sum + (words post).sum + x.toNat := by
    intro x
    have hfield : (field16 x).length % 2 = 0 := by rw [length_field16]
    rw [words_append hpre, words_append hfield, words_field16, List.sum_append, List.sum_append,
      List.sum_singleton]
    omega
  have hzero : (words (pre ++ (field16 0 ++ post))).sum = (words pre).sum + (words post).sum :=
    hsum 0
  rw [OnesComplement.total_eq_residue (by decide) _ (words_lt _), hsum, inetCksum_toNat, hzero,
    OnesComplement.residue_add_complement (by decide)]
  · rfl
  · rw [List.length_append, List.length_append, length_field16]
    omega

/-- The checksum of a segment is that of the pseudo-header and the segment. -/
theorem transportCksum_eq (src dst : Ip) (proto : UInt8) {seg : Bytes} {segLen : UInt16}
    (hlen : seg.length ≤ segLen.toNat) :
    transportCksum src dst proto seg segLen
      = inetCksum (pseudoHeader src dst proto segLen ++ seg) := by
  have hpseudo : (pseudoHeader src dst proto segLen).length % 2 = 0 := by simp [pseudoHeader]
  rw [transportCksum, inetCksum, sumWords_append hpseudo, List.take_of_length_le hlen]

end Checksums

/-! ## The frame is read back -/

section Parsed
variable {mem : Content} {i : Nat}

theorem word16At_of_standAt {x : UInt16} (h : StandAt (pktMem mem) i (field16 x)) :
    word16At mem i = x := by
  simp only [field16, standAt_cons, pktMem, low_byte16] at h
  rw [word16At, h.1, h.2.1, UInt16.or_comm]
  exact ofLe16_bytes x

theorem word32At_of_standAt {x : UInt32} (h : StandAt (pktMem mem) i (field32 x)) :
    word32At mem i = x := by
  simp only [field32, standAt_cons, pktMem, low_byte32, Nat.add_assoc, Nat.reduceAdd] at h
  obtain ⟨ha, hb, hc, hd, -⟩ := h
  calc
    word32At mem i = ofLe32 x.toUInt8 (x >>> 8).toUInt8 (x >>> 16).toUInt8 (x >>> 24).toUInt8 := by
      rw [word32At, ha, hb, hc, hd, be32_eq_ofLe32]
    _ = x := ofLe32_bytes x

theorem vectorAt_of_standAt {n : Nat} {v : Vector UInt8 n} (h : StandAt (pktMem mem) i v.toList) :
    vectorAt mem n i = v := by
  apply Vector.ext
  intro k hk
  have hk' : k < v.toList.length := by rwa [Vector.length_toList]
  rw [vectorAt, Vector.getElem_ofFn]
  exact (h k hk').trans (Vector.getElem_toList hk')

theorem payloadAt_of_standAt {l : Bytes} (h : StandAt (pktMem mem) i l) :
    payloadAt mem i l.length = l := by
  apply List.ext_getElem
  · simp
  · intro k hk hk'
    simpa [vectorAt, pktMem] using h k hk'

end Parsed

section Frame
variable {w : Sender} {s : TxSeg} {mem : Content}

@[simp] theorem length_ethHdr (w : Sender) (dst : Mac) (ethertype : UInt16) :
    (ethHdr w dst ethertype).length = 14 := by simp [ethHdr]

@[simp] theorem length_ipHdr (w : Sender) (dst : Ip) (ipTlen ick : UInt16) :
    (ipHdr w dst ipTlen ick).length = 20 := by simp [ipHdr]

@[simp] theorem length_tcpHdr (s : TxSeg) (tck : UInt16) : (tcpHdr s tck).length = 20 := by
  simp [tcpHdr]

/-- The length of a segment does not overflow. -/
theorem toNat_tcpTlen (hlen : s.data.length ≤ txSize) :
    (20 + UInt16.ofNat s.data.length).toNat = 20 + s.data.length := by
  rw [UInt16.toNat_add, UInt16.toNat_ofNat']
  change (20 + s.data.length % 2 ^ 16) % 2 ^ 16 = _
  rw [Nat.mod_eq_of_lt (by simp only [txSize] at hlen; omega),
    Nat.mod_eq_of_lt (by simp only [txSize] at hlen; omega)]

/-- What stands in a packet with these headers. -/
structure Fields (w : Sender) (s : TxSeg) (ipTlen : UInt16) (mem : Content) : Prop where
  etype : word16At mem 12 = 0x0800
  srcMac : vectorAt mem 6 6 = w.mac
  version : mem (.pkt 14) = 0x45
  totalLength : word16At mem 16 = ipTlen
  proto : mem (.pkt 23) = 6
  srcIp : vectorAt mem 4 26 = w.ip
  srcPort : word16At mem 34 = s.srcPort
  dstPort : word16At mem 36 = s.dstPort
  seq : word32At mem 38 = s.seq
  ack : word32At mem 42 = s.ack
  offset : mem (.pkt 46) = 0x50
  flags : mem (.pkt 47) = s.flags
  data : payloadAt mem 54 s.data.length = s.data

theorem fields_of_holds {ipTlen ick tck : UInt16}
    (h : Holds mem (ethHdr w s.dstMac 0x0800 ++ ipHdr w s.dstIp ipTlen ick ++
      (tcpHdr s tck ++ s.data))) : Fields w s ipTlen mem := by
  simp only [Holds, ethHdr, ipHdr, tcpHdr, standAt_append, standAt_cons, List.length_append,
    List.length_cons, List.length_nil, Vector.length_toList, length_field16, length_field32,
    Nat.reduceAdd, Nat.zero_add] at h
  obtain ⟨⟨⟨⟨-, hmac⟩, hetype⟩, ⟨⟨⟨⟨⟨⟨hversion, -⟩, hlen⟩, -⟩, -, -, -, hproto, -⟩, -⟩, hip⟩, -⟩,
    ⟨⟨⟨⟨⟨⟨hsrc, hdst⟩, hseq⟩, hack⟩, hoff, hflags, -⟩, -⟩, -⟩, hdata⟩ := h
  exact ⟨word16At_of_standAt hetype, vectorAt_of_standAt hmac, hversion, word16At_of_standAt hlen,
    hproto, vectorAt_of_standAt hip, word16At_of_standAt hsrc, word16At_of_standAt hdst,
    word32At_of_standAt hseq, word32At_of_standAt hack, hoff, hflags, payloadAt_of_standAt hdata⟩

/-- Segments are equal field by field. -/
theorem Seg.eq_of_fields {s s' : Seg} (hsrcIp : s.srcIp = s'.srcIp) (hsrcMac : s.srcMac = s'.srcMac)
    (hsrcPort : s.srcPort = s'.srcPort) (hdstPort : s.dstPort = s'.dstPort) (hseq : s.seq = s'.seq)
    (hack : s.ack = s'.ack) (hflags : s.flags = s'.flags) (hdata : s.data = s'.data) : s = s' := by
  cases s
  cases s'
  subst hsrcIp hsrcMac hsrcPort hdstPort hseq hack hflags hdata
  rfl

/-- `tcp_rx_process` sees the segment. -/
theorem Fields.segAt_eq (h : Fields w s (20 + (20 + UInt16.ofNat s.data.length)) mem)
    (hlen : s.data.length ≤ txSize) :
    ihlAt mem = 20 ∧ payLenAt mem = 20 + s.data.length ∧
      segAt mem 14 (14 + ihlAt mem) (payLenAt mem) (payLenAt_le mem) = received w s hlen := by
  have hihl : ihlAt mem = 20 := by
    rw [ihlAt, h.version]
    rfl
  have hpay : payLenAt mem = 20 + s.data.length := by
    rw [payLenAt, h.totalLength, hihl, UInt16.toNat_add, toNat_tcpTlen hlen]
    change (20 + (20 + s.data.length)) % 2 ^ 16 - 20 = _
    simp only [txSize] at hlen
    omega
  have hdoff : (headAt mem 34).doff = 20 := by
    rw [headAt, h.offset]
    rfl
  have hdata : payloadAt mem (14 + ihlAt mem + (headAt mem (14 + ihlAt mem)).doff)
      (payLenAt mem - (headAt mem (14 + ihlAt mem)).doff) = s.data := by
    rw [hihl, hdoff, hpay, Nat.add_sub_cancel_left]
    exact h.data
  refine ⟨hihl, hpay, Seg.eq_of_fields h.srcIp h.srcMac ?_ ?_ ?_ ?_ ?_ hdata⟩
  · exact (congrArg (fun t => word16At mem (14 + t)) hihl).trans h.srcPort
  · exact (congrArg (fun t => word16At mem (14 + t + 2)) hihl).trans h.dstPort
  · exact (congrArg (fun t => word32At mem (14 + t + 4)) hihl).trans h.seq
  · exact (congrArg (fun t => word32At mem (14 + t + 8)) hihl).trans h.ack
  · exact (congrArg (fun t => mem (.pkt (14 + t + 13))) hihl).trans h.flags

/-- The IP header sums to all ones. -/
theorem total_ipHdr (w : Sender) (dst : Ip) (ipTlen : UInt16) :
    OnesComplement.total 16 (words (ipHdr w dst ipTlen (inetCksum (ipHdr w dst ipTlen 0))))
      = 0xFFFF := by
  have hsplit : ∀ ick, ipHdr w dst ipTlen ick =
      ([0x45, 0x00] ++ field16 ipTlen ++ field16 w.ipId ++ [0, 0, 64, 6]) ++
        (field16 ick ++ (w.ip.toList ++ dst.toList)) := by
    intro ick
    simp only [ipHdr, List.append_assoc]
  rw [hsplit, hsplit 0]
  exact total_cksum (by simp) (by simp)

/-- A segment and its pseudo-header sum to all ones. -/
theorem total_tcpHdr (w : Sender) (s : TxSeg) (hlen : s.data.length ≤ txSize) :
    OnesComplement.total 16 (words (pseudoHeader w.ip s.dstIp 6 (20 + UInt16.ofNat s.data.length) ++
      (tcpHdr s (transportCksum w.ip s.dstIp 6 (tcpHdr s 0 ++ s.data)
        (20 + UInt16.ofNat s.data.length)) ++ s.data))) = 0xFFFF := by
  have hsplit : ∀ tck, pseudoHeader w.ip s.dstIp 6 (20 + UInt16.ofNat s.data.length) ++
      (tcpHdr s tck ++ s.data) =
      (pseudoHeader w.ip s.dstIp 6 (20 + UInt16.ofNat s.data.length) ++
        (field16 s.srcPort ++ field16 s.dstPort ++ field32 s.seq ++ field32 s.ack ++
          [0x50, s.flags, 0xFF, 0xFF])) ++ (field16 tck ++ ([0, 0] ++ s.data)) := by
    intro tck
    simp only [tcpHdr, List.append_assoc]
  rw [transportCksum_eq, hsplit, hsplit 0]
  · apply total_cksum
    · simp [pseudoHeader]
    · simp only [txSize] at hlen
      simp [pseudoHeader]
      omega
  · rw [toNat_tcpTlen hlen, List.length_append, length_tcpHdr]

/-- The frame of a segment verifies. -/
theorem tcpTxFrame_verifies (w : Sender) (s : TxSeg) (hlen : s.data.length ≤ txSize) :
    Verifies w s hlen (tcpTxFrame w s) := by
  have htlen := toNat_tcpTlen hlen
  have heth (ick tck : UInt16) :
      (ethHdr w s.dstMac 0x0800 ++ ipHdr w s.dstIp (20 + (20 + UInt16.ofNat s.data.length)) ick ++
        (tcpHdr s tck ++ s.data)).length = 54 + s.data.length := by
    simp only [List.length_append, length_ethHdr, length_ipHdr, length_tcpHdr]
    omega
  have hseg (ick tck : UInt16) :
      (ethHdr w s.dstMac 0x0800 ++ ipHdr w s.dstIp (20 + (20 + UInt16.ofNat s.data.length)) ick ++
        (tcpHdr s tck ++ s.data)).drop 34 = tcpHdr s tck ++ s.data :=
    List.drop_left' (by simp)
  constructor
  · rw [tcpTxFrame]
    dsimp only
    rw [heth]
    simp only [txSize, pktBufSize] at hlen ⊢
    omega
  · rw [tcpTxFrame]
    dsimp only
    rw [heth, UInt16.toNat_add, htlen]
    change (34 + (20 + s.data.length)) % 2 ^ 16 = _
    simp only [txSize] at hlen
    omega
  · rw [tcpTxFrame]
    dsimp only
    rw [List.append_assoc, List.drop_left' (length_ethHdr ..), List.take_left' (length_ipHdr ..)]
    exact total_ipHdr w s.dstIp _
  · have hofNat : ∀ tck, UInt16.ofNat (tcpHdr s tck ++ s.data).length
        = 20 + UInt16.ofNat s.data.length := by
      intro tck
      rw [List.length_append, length_tcpHdr, UInt16.ofNat_add]
      rfl
    rw [tcpTxFrame]
    dsimp only
    rw [hseg, hofNat]
    exact total_tcpHdr w s hlen
  · intro mem hmem
    have hfields : Fields w s _ mem := fields_of_holds hmem
    obtain ⟨hihl, hpay, hparsed⟩ := hfields.segAt_eq hlen
    refine ⟨hfields.etype, hfields.proto, ?_, hparsed⟩
    rw [payLenAt, hihl] at hpay
    rw [tcpTxFrame, List.length_drop]
    dsimp only
    rw [heth]
    omega

/-- No more is taken out of a segment than it carries. -/
theorem takenBy_le (n : Net) (s : Seg) : takenBy n s ≤ s.data.length := by
  have hcopied : ∀ c : TcpConn, copied c s.seq s.data.length ≤ s.data.length := by
    intro c
    rw [copied]
    split
    · exact Nat.min_le_left _ _
    · split
      · exact Nat.le_refl _
      · exact Nat.zero_le _
  rw [takenBy]
  split
  · exact Nat.zero_le _
  · rw [taken]
    split
    · exact Nat.zero_le _
    · exact hcopied _

/-- A receiver reads such a frame inside its length. -/
theorem tcpTxFrame_inside (n : Net) (isNull : Bool) (hlen : s.data.length ≤ txSize)
    (hmem : Holds mem (tcpTxFrame w s).frame) :
    FrameInside n (tcpTxFrame w s).frame.length isNull mem := by
  have hfields : Fields w s _ mem := fields_of_holds hmem
  obtain ⟨hihl, hpay, hparsed⟩ := hfields.segAt_eq hlen
  have hframe : (tcpTxFrame w s).frame.length = 54 + s.data.length := by
    simp only [tcpTxFrame, List.length_append, length_ethHdr, length_ipHdr, length_tcpHdr]
    omega
  have hdoff : (headAt mem (14 + ihlAt mem)).doff = 20 := by
    rw [hihl, headAt, hfields.offset]
    rfl
  constructor
  · intro _ _ hicmp
    rw [hfields.proto] at hicmp
    exact absurd hicmp (by decide)
  · intro _ _ _ _
    constructor
    · omega
    · dsimp only
      have htaken := takenBy_le n (received w s hlen)
      rw [hparsed, hdoff, hihl, hframe]
      exact Or.inr (Nat.add_le_add_left htaken 54)

end Frame

end OriaOS.Tcp
