import Mathlib.Data.List.Induction
import OriaOS.Lib.Bytes
import OriaOS.Lib.GuardRing

/-!
# The receive ring of the network card

The card writes frames into `rx_buf` and moves an offset of its own; `rtl8139_recv` reads them
and moves `g_rx_ptr`. Both round and wrap for themselves, and nothing but the `CAPR` register
tells the card how far the driver is.
-/

namespace OriaOS.Rtl8139

open OriaOS.Lib OriaOS.Lib.Reading

abbrev Bytes := List UInt8

/-! ## The driver -/

/-- `RX_BUF_SIZE`. -/
abbrev rxBufSize : Nat := 8192 + 16 + 1518

/-- `g_rx_ptr` behind a header and some bytes: rounded up to four, less 8192 from 8192 on. -/
def advance (gRxPtr pktLen : UInt16) : UInt16 :=
  let next := ((gRxPtr.toUInt32 + 4 + pktLen.toUInt32 + 3) &&& ~~~ 3).toUInt16
  if 8192 ≤ next then next - 8192 else next

/-- `rtl8139_recv`, the loop that copies the data. -/
def copyData (pos : Nat) : Nat → Reading Nat Bytes
  | 0 => pure []
  | n + 1 => do
      let b ← byte pos
      let rest ← copyData (pos + 1) n
      pure (b :: rest)

/-- What a call leaves in `buf` and `*out_len` when it returns 0. -/
structure Received where
  buf : Bytes
  outLen : UInt16
  deriving DecidableEq

/-- What a call leaves: the pointer, what it writes to `CAPR`, and the frame, or -1. -/
structure Outcome where
  gRxPtr : UInt16
  capr : Option UInt16
  received : Option Received
  deriving DecidableEq

/-- `rtl8139_recv`. The call finds `g_present` and the bit `BUFE` of the command register. -/
def recv (gPresent bufe : Bool) (gRxPtr : UInt16) : Reading Nat Outcome :=
  if !gPresent || bufe then pure ⟨gRxPtr, none, none⟩
  else do
    let ring0 ← byte gRxPtr.toNat
    let ring1 ← byte (gRxPtr.toNat + 1)
    let ring2 ← byte (gRxPtr.toNat + 2)
    let ring3 ← byte (gRxPtr.toNat + 3)
    let status := ofLe16 ring0 ring1
    let pktLen := ofLe16 ring2 ring3
    if status &&& 1 = 0 ∨ pktLen < 8 ∨ pktLen > 1522 then
      -- a bad packet is skipped by its header alone
      let next := advance gRxPtr 0
      pure ⟨next, some (next - 16), none⟩
    else do
      let dataLen := if pktLen - 4 > 1514 then 1514 else pktLen - 4
      let data ← copyData (gRxPtr.toNat + 4) dataLen.toNat
      let next := advance gRxPtr pktLen
      pure ⟨next, some (next - 16), some ⟨data, dataLen⟩⟩

/-! ## The card -/

/-- A word as the card writes it. -/
def wordBytes (x : UInt16) : Bytes := [x.toUInt8, (x >>> 8).toUInt8]

/-- A good frame of a legal Ethernet length, 64 to 1518 bytes with its checksum. -/
structure Frame where
  status : UInt16
  data : Bytes
  crc : Bytes
  rok : status &&& 1 ≠ 0
  crc_length : crc.length = 4
  data_length : 60 ≤ data.length ∧ data.length ≤ 1514

namespace Frame

/-- The length field of the header counts the checksum. -/
def length (f : Frame) : UInt16 := UInt16.ofNat (f.data.length + 4)

theorem toNat_length (f : Frame) : f.length.toNat = f.data.length + 4 := by
  have := f.data_length
  rw [length, UInt16.toNat_ofNat', Nat.mod_eq_of_lt (by omega)]

/-- The header and the data with the checksum. -/
def bytes (f : Frame) : Bytes :=
  wordBytes f.status ++ wordBytes f.length ++ (f.data ++ f.crc)

theorem bytes_length (f : Frame) : f.bytes.length = f.data.length + 8 := by
  simp only [bytes, wordBytes, List.length_append, List.length_cons, List.length_nil, f.crc_length]
  omega

/-- From the offset of a frame to the next boundary of four bytes behind it. -/
def slot (f : Frame) : Nat := (4 + f.length.toNat + 3) / 4 * 4

instance : Slotted Frame where
  bytes := bytes
  slot := slot
  fits f := by
    rw [bytes_length, slot, toNat_length]
    omega

/-- What the driver should hand over. -/
def received (f : Frame) : Received := ⟨f.data, UInt16.ofNat f.data.length⟩

end Frame

/-- The card: the ring, its own offset, and the register in which the driver reports. -/
structure Card where
  rxBuf : Nat → UInt8
  offset : Nat
  capr : UInt16

namespace Card

/-- The offset behind a frame, minus 8192 once it reaches 8192. -/
def nextOffset (offset : Nat) (f : Frame) : Nat :=
  let next := (offset + 4 + f.length.toNat + 3) / 4 * 4
  if 8192 ≤ next then next - 8192 else next

/-- The bytes between the offset that the driver reported and the card's own. -/
def unread (c : Card) : Nat := (c.offset + 8192 - (c.capr + 16).toNat) % 8192

/-- `BUFE`: nothing is left to read. -/
def bufe (c : Card) : Bool := c.unread == 0

/-- A frame is stored as long as the card's offset does not reach the driver's. -/
def hasRoom (c : Card) (f : Frame) : Bool := c.unread + f.slot < 8192

/-- The card writes a frame linearly and moves its offset. -/
def store (c : Card) (f : Frame) : Card :=
  { c with rxBuf := stored c.rxBuf c.offset f.bytes, offset := nextOffset c.offset f }

end Card

/-! ## Runs -/

/-- The driver, the card, and what happened: the frames stored and the frames returned. -/
structure State where
  card : Card
  gRxPtr : UInt16
  storedFrames : List Frame
  returned : List Received

/-- `rtl8139_init`: `CAPR` and the pointer, whatever the ring holds. -/
def start (rxBuf : Nat → UInt8) : State := ⟨⟨rxBuf, 0, 0xFFF0⟩, 0, [], []⟩

/-- A frame arrives from the network, or `rtl8139_recv` is called. -/
inductive Event
  | arrive (f : Frame)
  | call

/-- A frame without room is lost. -/
def arrive (s : State) (f : Frame) : State :=
  if s.card.hasRoom f then
    { s with card := s.card.store f, storedFrames := s.storedFrames ++ [f] }
  else s

/-- The call that a state would make. -/
def outcome (s : State) : Option Outcome := (recv true s.card.bufe s.gRxPtr).value s.card.rxBuf

def call (s : State) : State :=
  match outcome s with
  | none => s
  | some out =>
      { s with
        card := { s.card with capr := out.capr.getD s.card.capr }
        gRxPtr := out.gRxPtr
        returned := s.returned ++ out.received.toList }

def step (s : State) : Event → State
  | .arrive f => arrive s f
  | .call => call s

def run (s : State) (es : List Event) : State := es.foldl step s

/-! ## Rounding -/

theorem and_not_three {x : Nat} (hx : x < 2 ^ 32) : x &&& 4294967292 = x / 4 * 4 := by
  have hright : x / 4 * 4 = x >>> 2 <<< 2 := by
    rw [Nat.shiftRight_eq_div_pow, Nat.shiftLeft_eq]
  have hmask : 4294967292 = (2 ^ 30 - 1) <<< 2 := by decide
  rw [hright, hmask]
  apply Nat.eq_of_testBit_eq
  intro i
  rw [Nat.testBit_and, Nat.testBit_shiftLeft, Nat.testBit_shiftLeft, Nat.testBit_shiftRight,
    Nat.testBit_two_pow_sub_one]
  rcases Nat.lt_or_ge i 2 with h | h
  · simp [Nat.not_le_of_lt h]
  · rcases Nat.lt_or_ge i 32 with h' | h'
    · simp [h, show i - 2 < 30 by omega, show 2 + (i - 2) = i by omega]
    · rw [Nat.testBit_lt_two_pow (Nat.lt_of_lt_of_le hx (Nat.pow_le_pow_right (by decide) h')),
        show 2 + (i - 2) = i by omega,
        Nat.testBit_lt_two_pow (Nat.lt_of_lt_of_le hx (Nat.pow_le_pow_right (by decide) h'))]
      simp

/-- The pointer behind a packet, as a number. -/
theorem toNat_advance {gRxPtr pktLen : UInt16} (hptr : gRxPtr.toNat < 8192)
    (hlen : pktLen.toNat ≤ 1522) :
    (advance gRxPtr pktLen).toNat =
      let next := (gRxPtr.toNat + 4 + pktLen.toNat + 3) / 4 * 4
      if 8192 ≤ next then next - 8192 else next := by
  have hnext : ((gRxPtr.toUInt32 + 4 + pktLen.toUInt32 + 3) &&& ~~~ 3).toUInt16.toNat
      = (gRxPtr.toNat + 4 + pktLen.toNat + 3) / 4 * 4 := by
    have hsum : (gRxPtr.toUInt32 + 4 + pktLen.toUInt32 + 3).toNat
        = gRxPtr.toNat + 4 + pktLen.toNat + 3 := by
      simp only [UInt32.toNat_add, UInt16.toNat_toUInt32, UInt32.reduceToNat]
      omega
    rw [UInt32.toNat_toUInt16, UInt32.toNat_and, hsum]
    change (gRxPtr.toNat + 4 + pktLen.toNat + 3 &&& 4294967292) % 2 ^ 16 = _
    rw [and_not_three (by omega)]
    omega
  have hcmp : 8192 ≤ ((gRxPtr.toUInt32 + 4 + pktLen.toUInt32 + 3) &&& ~~~ 3).toUInt16 ↔
      8192 ≤ (gRxPtr.toNat + 4 + pktLen.toNat + 3) / 4 * 4 := by
    rw [UInt16.le_iff_toNat_le, hnext]
    exact Iff.rfl
  unfold advance
  dsimp only
  split <;> rename_i h
  · rw [if_pos (hcmp.mp h), UInt16.toNat_sub_of_le _ _ h, hnext]
    rfl
  · rw [if_neg (fun h' => h (hcmp.mpr h')), hnext]

/-! ## One call -/

section Call
variable {mem : Nat → UInt8} {gRxPtr : UInt16}

theorem ends_copyData {pos n : Nat} (h : pos + n ≤ rxBufSize) :
    Ends (· < rxBufSize) mem (copyData pos n) (fun l => l.length = n) := by
  induction n generalizing pos with
  | zero => exact Ends.pure rfl
  | succ n ih =>
      refine Ends.byte_bind (by omega) ?_
      apply Ends.bind (ih (by omega))
      intro rest hrest
      apply Ends.pure
      rw [List.length_cons, hrest]

theorem value_copyData {pos : Nat} {l : Bytes} (h : StandAt mem pos l) :
    (copyData pos l.length).value mem = some l := by
  induction l generalizing pos with
  | nil => rfl
  | cons b l ih =>
      rw [standAt_cons] at h
      simp only [List.length_cons, copyData, value_bind, value_byte, ih h.2, h.1, value_pure,
        Option.bind_some]

/-- A pointer at a place where a header may stand. -/
structure Aligned (gRxPtr : UInt16) : Prop where
  lt : gRxPtr.toNat < 8192
  four : gRxPtr.toNat % 4 = 0

theorem Aligned.advance (h : Aligned gRxPtr) {pktLen : UInt16} (hlen : pktLen.toNat ≤ 1522) :
    Aligned (advance gRxPtr pktLen) := by
  have := h.lt
  constructor <;> rw [toNat_advance h.lt hlen] <;> dsimp only <;> split <;> omega

/-- What a call may do: read inside `rx_buf`, hand over at most 1514 bytes, as many as it says,
and leave the pointer at a place for a header. -/
def Bounded (mem : Nat → UInt8) (x : Reading Nat Outcome) : Prop :=
  Ends (· < rxBufSize) mem x fun out =>
    Aligned out.gRxPtr ∧
      ∀ r ∈ out.received, r.buf.length ≤ 1514 ∧ r.outLen.toNat = r.buf.length

/-- Every call is bounded, whatever the ring holds. -/
theorem bounded_recv (gPresent bufe : Bool) (h : Aligned gRxPtr) :
    Bounded mem (recv gPresent bufe gRxPtr) := by
  have hlt := h.lt
  have hsize : rxBufSize = 9726 := rfl
  unfold recv Bounded
  apply Ends.ite
  · intro _
    exact Ends.pure ⟨h, nofun⟩
  intro _
  refine Ends.byte_bind (by omega) ?_
  refine Ends.byte_bind (by omega) ?_
  refine Ends.byte_bind (by omega) ?_
  refine Ends.byte_bind (by omega) ?_
  apply Ends.ite
  · intro _
    exact Ends.pure ⟨h.advance (by decide), nofun⟩
  intro hgood
  obtain ⟨pktLen, hpkt⟩ : ∃ p, p = ofLe16 (mem (gRxPtr.toNat + 2)) (mem (gRxPtr.toNat + 3)) :=
    ⟨_, rfl⟩
  rw [← hpkt] at hgood ⊢
  have hhigh : pktLen ≤ 1522 := UInt16.not_lt.mp fun h => hgood (Or.inr (Or.inr h))
  have hhigh : pktLen.toNat ≤ 1522 := UInt16.le_iff_toNat_le.mp hhigh
  obtain ⟨dataLen, hdata⟩ : ∃ d, d = if pktLen - 4 > 1514 then 1514 else pktLen - 4 := ⟨_, rfl⟩
  have hle : dataLen.toNat ≤ 1514 := by
    rw [hdata]
    split <;> rename_i hcut
    · decide
    · exact UInt16.le_iff_toNat_le.mp (UInt16.not_lt.mp hcut)
  rw [← hdata]
  apply Ends.bind (ends_copyData (show gRxPtr.toNat + 4 + dataLen.toNat ≤ rxBufSize by omega))
  intro data hlen
  apply Ends.pure
  refine ⟨h.advance hhigh, ?_⟩
  rintro _ ⟨⟩
  exact ⟨hlen.trans_le hle, hlen.symm⟩

/-- A frame that stands at the pointer is handed over. -/
theorem recv_frame {f : Frame} (h : StandAt mem gRxPtr.toNat f.bytes) :
    (recv true false gRxPtr).value mem =
      some ⟨advance gRxPtr f.length, some (advance gRxPtr f.length - 16), some f.received⟩ := by
  have hlen := f.toNat_length
  have hdata := f.data_length
  have hsplit : f.bytes = f.status.toUInt8 :: (f.status >>> 8).toUInt8 :: f.length.toUInt8 ::
      (f.length >>> 8).toUInt8 :: (f.data ++ f.crc) := rfl
  rw [hsplit] at h
  simp only [standAt_cons, standAt_append, Nat.add_assoc, Nat.reduceAdd] at h
  obtain ⟨h0, h1, h2, h3, hbytes, -⟩ := h
  have hlow : (8 : UInt16) ≤ f.length := by
    rw [UInt16.le_iff_toNat_le, hlen]
    change 8 ≤ _
    omega
  have hhigh : f.length ≤ 1522 := by
    rw [UInt16.le_iff_toNat_le, hlen]
    change _ ≤ 1522
    omega
  have hgood : ¬(f.status &&& 1 = 0 ∨ f.length < 8 ∨ f.length > 1522) := by
    rintro (h | h | h)
    · exact f.rok h
    · exact UInt16.not_lt.mpr hlow h
    · exact UInt16.not_lt.mpr hhigh h
  have hsub : f.length - 4 = UInt16.ofNat f.data.length := by
    rw [← UInt16.toNat_inj, UInt16.toNat_sub_of_le _ _ (UInt16.le_trans (by decide) hlow), hlen,
      UInt16.toNat_ofNat', Nat.mod_eq_of_lt (by omega)]
    rfl
  have htoNat : (UInt16.ofNat f.data.length).toNat = f.data.length := by
    rw [UInt16.toNat_ofNat', Nat.mod_eq_of_lt (by omega)]
  have hcut : ¬UInt16.ofNat f.data.length > 1514 := by
    rw [gt_iff_lt, UInt16.lt_iff_toNat_lt, htoNat]
    exact Nat.not_lt.mpr hdata.2
  simp only [recv, Bool.not_true, Bool.or_false, Bool.false_eq_true, if_false, value_bind,
    value_byte, Option.bind_some, h0, h1, h2, h3, ofLe16_bytes, value_ite, if_neg hgood,
    hsub, if_neg hcut, htoNat, value_copyData hbytes, value_pure]
  rfl

theorem recv_empty : (recv true true gRxPtr).value mem = some ⟨gRxPtr, none, none⟩ := rfl

end Call

/-! ## The driver and the card in step -/

open GuardRing

theorem slot_mod_four (f : Frame) : Slotted.slot f % 4 = 0 := Nat.mul_mod_left _ _

theorem slot_eq (f : Frame) : Slotted.slot f = (f.data.length + 11) / 4 * 4 := by
  change (4 + f.length.toNat + 3) / 4 * 4 = _
  rw [f.toNat_length]
  omega

theorem span_mod_four (fs : List Frame) : span fs % 4 = 0 := by
  induction fs with
  | nil => rfl
  | cons f fs ih =>
      have := slot_mod_four f
      rw [span_cons]
      omega

/-- Rounding and wrapping behind a frame is taking its slot. -/
theorem nextOffset_eq (f : Frame) {pos : Nat} (hpos : pos % 4 = 0) :
    Card.nextOffset (pos % 8192) f = (pos + Slotted.slot f) % 8192 := by
  have := f.data_length
  unfold Card.nextOffset
  rw [slot_eq, f.toNat_length]
  dsimp only
  split <;> omega

/-- The driver rounds and wraps as the card does. -/
theorem toNat_advance_frame {gRxPtr : UInt16} (f : Frame) (h : gRxPtr.toNat < 8192) :
    (advance gRxPtr f.length).toNat = Card.nextOffset gRxPtr.toNat f := by
  have hlen := f.toNat_length
  have := f.data_length
  exact toNat_advance h (by omega)

/-- The card's offset behind some frames. -/
def offsetBehind (fs : List Frame) : Nat := fs.foldl Card.nextOffset 0

theorem offsetBehind_eq (fs : List Frame) : offsetBehind fs = span fs % 8192 := by
  induction fs using List.reverseRecOn with
  | nil => rfl
  | append_singleton fs f ih =>
      unfold offsetBehind at ih ⊢
      rw [List.foldl_append, ih, List.foldl_cons, List.foldl_nil,
        nextOffset_eq f (span_mod_four fs), span_append, span_cons, span_nil, Nat.add_zero]

/-- The frames that were returned are the first ones stored, the others stand in the ring, and
both offsets and the register agree with that. -/
structure InStep (s : State) (read unread : List Frame) : Prop where
  stored : s.storedFrames = read ++ unread
  returned : s.returned = read.map Frame.received
  pointer : s.gRxPtr.toNat = span read % 8192
  offset : s.card.offset = (span read + span unread) % 8192
  capr : s.card.capr = s.gRxPtr - 16
  queued : Queued 8192 s.card.rxBuf (span read) unread
  room : span unread < 8192

namespace InStep
variable {s : State} {read unread : List Frame}

theorem start (rxBuf : Nat → UInt8) : InStep (start rxBuf) [] [] where
  stored := rfl
  returned := rfl
  pointer := rfl
  offset := rfl
  capr := rfl
  queued := trivial
  room := by decide

/-- What the card computes from its registers. -/
theorem unread_eq (h : InStep s read unread) : s.card.unread = span unread := by
  have hroom := h.room
  rw [Card.unread, h.capr, h.offset, UInt16.sub_add_cancel, h.pointer]
  omega

theorem aligned (h : InStep s read unread) : Aligned s.gRxPtr := by
  have := span_mod_four read
  constructor <;> rw [h.pointer] <;> omega

theorem bufe_eq_true (h : InStep s read []) : s.card.bufe = true := by
  rw [Card.bufe, h.unread_eq]
  rfl

theorem bufe_eq_false {f : Frame} (h : InStep s read (f :: unread)) : s.card.bufe = false := by
  have := f.data_length
  rw [Card.bufe, h.unread_eq, span_cons, slot_eq, beq_eq_false_iff_ne]
  omega

/-- The call of a driver whose card has nothing. -/
theorem outcome_nil (h : InStep s read []) : outcome s = some ⟨s.gRxPtr, none, none⟩ := by
  rw [outcome, h.bufe_eq_true, recv_empty]

/-- The call of a driver whose card has a frame. -/
theorem outcome_cons {f : Frame} (h : InStep s read (f :: unread)) :
    outcome s = some ⟨advance s.gRxPtr f.length, some (advance s.gRxPtr f.length - 16),
      some f.received⟩ := by
  have hhere := h.queued.1
  rw [← h.pointer] at hhere
  rw [outcome, h.bufe_eq_false, recv_frame hhere]

/-- A frame arrives: it is stored behind the others, or lost. -/
theorem arrive (h : InStep s read unread) (f : Frame) :
    ∃ unread', InStep (arrive s f) read unread' := by
  unfold Rtl8139.arrive
  split <;> rename_i hfit
  · refine ⟨unread ++ [f], ?_⟩
    have hfit : span unread + Slotted.slot f < 8192 := by
      rw [Card.hasRoom, h.unread_eq, decide_eq_true_iff] at hfit
      exact hfit
    have hqueued := h.queued.store (by decide) (Nat.le_of_lt hfit)
    constructor
    case stored => exact (congrArg (· ++ [f]) h.stored).trans (List.append_assoc _ _ _)
    case returned => exact h.returned
    case pointer => exact h.pointer
    case offset =>
      have := span_mod_four read
      have := span_mod_four unread
      change Card.nextOffset s.card.offset f = _
      rw [h.offset, nextOffset_eq f (by omega), span_append, span_cons, span_nil, Nat.add_zero,
        Nat.add_assoc]
    case capr => exact h.capr
    case queued =>
      rw [← h.offset] at hqueued
      exact hqueued
    case room =>
      rw [span_append, span_cons, span_nil]
      exact hfit
  · exact ⟨unread, h⟩

/-- A call: the next frame is returned, if there is one. -/
theorem call (h : InStep s read unread) :
    ∃ read' unread', InStep (call s) read' unread' := by
  unfold Rtl8139.call
  cases unread with
  | nil =>
      rw [h.outcome_nil]
      refine ⟨read, [], ?_⟩
      simpa using h
  | cons f unread =>
      rw [h.outcome_cons]
      refine ⟨read ++ [f], unread, ?_⟩
      have hspan : span (read ++ [f]) = span read + Slotted.slot f := by
        rw [span_append, span_cons, span_nil, Nat.add_zero]
      constructor
      case stored => rw [h.stored, List.append_assoc, List.singleton_append]
      case returned => rw [h.returned, List.map_append]; rfl
      case pointer =>
        rw [toNat_advance_frame f h.aligned.lt, h.pointer, nextOffset_eq f (span_mod_four read),
          hspan]
      case offset => rw [hspan, Nat.add_assoc, ← span_cons]; exact h.offset
      case capr => rfl
      case queued => rw [hspan]; exact h.queued.2
      case room =>
        have := h.room
        rw [span_cons] at this
        omega

theorem step (h : InStep s read unread) (e : Event) :
    ∃ read' unread', InStep (step s e) read' unread' := by
  cases e with
  | arrive f =>
      obtain ⟨unread', h'⟩ := h.arrive f
      exact ⟨read, unread', h'⟩
  | call => exact h.call

theorem run (h : InStep s read unread) (es : List Event) :
    ∃ read' unread', InStep (run s es) read' unread' := by
  induction es generalizing s read unread with
  | nil => exact ⟨read, unread, h⟩
  | cons e es ih =>
      obtain ⟨read', unread', h'⟩ := h.step e
      exact ih h'

end InStep

/-! ## Every run -/

/-- The frames returned are the first ones stored, whole and in order; the pointer is the card's
offset of the next one; and a call returns that one, or -1 if there is none. -/
structure Faithful (s : State) : Prop where
  returned : s.returned = (s.storedFrames.take s.returned.length).map Frame.received
  offset : s.card.offset = offsetBehind s.storedFrames
  pointer : s.gRxPtr.toNat = offsetBehind (s.storedFrames.take s.returned.length)
  next : (outcome s).map Outcome.received
    = some ((s.storedFrames[s.returned.length]?).map Frame.received)

theorem InStep.faithful {s : State} {read unread : List Frame} (h : InStep s read unread) :
    Faithful s := by
  have hcount : s.returned.length = read.length := by rw [h.returned, List.length_map]
  have htake : s.storedFrames.take s.returned.length = read := by
    rw [hcount, h.stored, List.take_left]
  constructor
  case returned => rw [htake]; exact h.returned
  case offset => rw [h.offset, offsetBehind_eq, h.stored, span_append]
  case pointer => rw [htake, offsetBehind_eq]; exact h.pointer
  case next =>
    rw [hcount, h.stored, List.getElem?_append_right (Nat.le_refl _), Nat.sub_self]
    cases unread with
    | nil => rw [h.outcome_nil]; rfl
    | cons f unread => rw [h.outcome_cons]; rfl

/-- What a call finds when anything may stand in the ring. -/
structure Found where
  rxBuf : Nat → UInt8
  gPresent : Bool
  bufe : Bool

namespace Found

def recv (found : Found) (gRxPtr : UInt16) : Reading Nat Outcome :=
  Rtl8139.recv found.gPresent found.bufe gRxPtr

/-- The pointer after calls that found something each. -/
def pointerAfter (calls : List Found) : UInt16 :=
  calls.foldl (fun gRxPtr found => (((found.recv gRxPtr).value found.rxBuf).map
    Outcome.gRxPtr).getD gRxPtr) 0

theorem aligned_pointerAfter (calls : List Found) : Aligned (pointerAfter calls) := by
  induction calls using List.reverseRecOn with
  | nil => exact ⟨by decide, by decide⟩
  | append_singleton calls found ih =>
      unfold pointerAfter at ih ⊢
      rw [List.foldl_append, List.foldl_cons, List.foldl_nil]
      have hbounded : Bounded found.rxBuf (found.recv _) :=
        bounded_recv found.gPresent found.bufe ih
      obtain ⟨out, hvalue, hout⟩ := hbounded.returns
      rw [hvalue]
      exact hout.1

end Found

/-- In every run of arrivals and calls the frames come out as they went in, and whatever the
ring holds a call is bounded. -/
theorem recv_faithful :
    (∀ rxBuf es, Faithful (run (start rxBuf) es)) ∧
      ∀ (calls : List Found) (found : Found),
        Aligned (Found.pointerAfter calls) ∧
          Bounded found.rxBuf (found.recv (Found.pointerAfter calls)) := by
  constructor
  · intro rxBuf es
    obtain ⟨read, unread, h⟩ := (InStep.start rxBuf).run es
    exact h.faithful
  · intro calls found
    have h := Found.aligned_pointerAfter calls
    exact ⟨h, bounded_recv found.gPresent found.bufe h⟩

end OriaOS.Rtl8139
