import OriaOS.Lib.Bytes
import OriaOS.Lib.Reading
import OriaOS.Lib.Signed

/-!
# Frames of a WebSocket

`ws_frame_encode` and `ws_frame_decode`. The guard of the encoder counts ten bytes for the header
and is itself an `int`, so a payload with the long form of its length may pass it and not fit. The
decoder keeps the low half of the long form and adds it to the header as an `int`.
-/

namespace OriaOS.WebSocket

open OriaOS.Lib OriaOS.Lib.Reading

/-! ## The encoder -/

/-- `x >> n`. A shift by 32 and more is left to the machine. -/
def shr (wide : UInt32 → Nat → UInt32) (x : UInt32) (n : Nat) : UInt32 :=
  if n < 32 then x >>> UInt32.ofNat n else wide x n

/-- The bytes before the masking key. -/
def head (wide : UInt32 → Nat → UInt32) (opcode : UInt8) (plen : UInt32) : List UInt8 :=
  (0x80 ||| (opcode &&& 0x0F)) ::
    if plen ≤ 125 then [(0x80 ||| plen).toUInt8]
    else if plen ≤ 65535 then [0xFE, (plen >>> 8).toUInt8, (plen &&& 0xFF).toUInt8]
    else 0xFF :: [7, 6, 5, 4, 3, 2, 1, 0].map fun k => (shr wide plen (k * 8) &&& 0xFF).toUInt8

/-- `ws_frame_encode`: the bytes written from `out[0]` on, none for -1. -/
def wsFrameEncode (wide : UInt32 → Nat → UInt32) (outmax : Int) (opcode : UInt8)
    (payload : Nat → UInt8) (plen : UInt32) (mask : Nat → UInt8) : Option (List UInt8) :=
  if asInt32 (plen + 10).toNat > outmax then none
  else
    some (head wide opcode plen ++ [mask 0, mask 1, mask 2, mask 3] ++
      (List.range plen.toNat).map fun j => payload j ^^^ mask (j % 4))

/-- The bytes before the payload. -/
def headerLen (plen : UInt32) : Nat :=
  if plen ≤ 125 then 6 else if plen ≤ 65535 then 8 else 14

/-! ## The decoder -/

/-- What a call returns, and what it stored: the opcode, and where the payload starts and how
long it is. -/
structure Decoded where
  ret : Int
  opcode : Option UInt8
  payload : Option (Nat × UInt32)

/-- The length of the payload and the bytes it stands behind, none if these are not all there. -/
def lengthField (buflen : Int) (plen : UInt32) : Reading Nat (Option (Nat × UInt32)) :=
  if plen = 126 then
    if buflen < 4 then pure none
    else do
      let hi ← byte 2
      let lo ← byte 3
      pure (some (4, hi.toUInt32 <<< 8 ||| lo.toUInt32))
  else if plen = 127 then
    if buflen < 10 then pure none
    else do
      let a ← byte 6
      let b ← byte 7
      let c ← byte 8
      let d ← byte 9
      pure (some (10, a.toUInt32 <<< 24 ||| b.toUInt32 <<< 16 ||| c.toUInt32 <<< 8 ||| d.toUInt32))
  else pure (some (2, plen))

/-- `ws_frame_decode` -/
def wsFrameDecode (buflen : Int) : Reading Nat Decoded :=
  if buflen < 2 then pure ⟨0, none, none⟩
  else do
    let b0 ← byte 0
    let opcode := b0 &&& 0x0F
    let b1 ← byte 1
    let masked := b1 &&& 0x80 ≠ 0
    let field ← lengthField buflen (b1 &&& 0x7F).toUInt32
    match field with
    | none => pure ⟨0, some opcode, none⟩
    | some (len, plen) =>
        let hdr := if masked then len + 4 else len
        if buflen < asInt32 (hdr + asInt32 plen.toNat) then pure ⟨0, some opcode, none⟩
        else pure ⟨asInt32 (hdr + asInt32 plen.toNat), some opcode, some (hdr, plen)⟩

section Decode
variable {mem : Nat → UInt8} {buflen : Int}

/-- The bytes that tell the length of the payload. -/
def fieldEnd (mem : Nat → UInt8) : Nat :=
  if mem 1 &&& 0x7F = 126 then 4 else if mem 1 &&& 0x7F = 127 then 10 else 2

/-- The length of the payload, as far as it is kept. -/
def payloadLen (mem : Nat → UInt8) : UInt32 :=
  if mem 1 &&& 0x7F = 126 then (mem 2).toUInt32 <<< 8 ||| (mem 3).toUInt32
  else if mem 1 &&& 0x7F = 127 then
    (mem 6).toUInt32 <<< 24 ||| (mem 7).toUInt32 <<< 16 ||| (mem 8).toUInt32 <<< 8 |||
      (mem 9).toUInt32
  else (mem 1 &&& 0x7F).toUInt32

/-- Where the payload starts. -/
def payloadStart (mem : Nat → UInt8) : Nat :=
  if mem 1 &&& 0x80 ≠ 0 then fieldEnd mem + 4 else fieldEnd mem

/-- The length of the frame, as an `int`. -/
def frameLen (mem : Nat → UInt8) : Int :=
  asInt32 (payloadStart mem + (payloadLen mem).toNat)

theorem two_le_fieldEnd (mem : Nat → UInt8) : 2 ≤ fieldEnd mem := by
  rw [fieldEnd]
  split_ifs <;> omega

theorem fieldEnd_le_payloadStart (mem : Nat → UInt8) :
    fieldEnd mem ≤ payloadStart mem := by
  rw [payloadStart]
  split_ifs <;> omega

theorem payloadStart_le (mem : Nat → UInt8) : payloadStart mem ≤ 14 := by
  rw [payloadStart, fieldEnd]
  split_ifs <;> omega

theorem toUInt32_eq_iff {b : UInt8} {c : UInt8} : b.toUInt32 = c.toUInt32 ↔ b = c := by
  rw [← UInt32.toNat_inj, ← UInt8.toNat_inj, UInt8.toNat_toUInt32, UInt8.toNat_toUInt32]

theorem ends_lengthField (h : 2 ≤ buflen) :
    Ends (fun i : Nat => (i : Int) < buflen) mem (lengthField buflen (mem 1 &&& 0x7F).toUInt32)
      (· = if buflen < fieldEnd mem then none else some (fieldEnd mem, payloadLen mem)) := by
  have h126 : (mem 1 &&& 0x7F).toUInt32 = 126 ↔ mem 1 &&& 0x7F = 126 := by
    rw [← toUInt32_eq_iff]
    rfl
  have h127 : (mem 1 &&& 0x7F).toUInt32 = 127 ↔ mem 1 &&& 0x7F = 127 := by
    rw [← toUInt32_eq_iff]
    rfl
  simp only [lengthField, fieldEnd, payloadLen, h126, h127]
  apply Ends.ite
  · intro h126
    simp only [if_pos h126]
    apply Ends.ite
    · intro hlen
      exact Ends.pure (if_pos hlen).symm
    · intro hlen
      apply Ends.byte_bind (by omega)
      apply Ends.byte_bind (by omega)
      exact Ends.pure (if_neg hlen).symm
  · intro h126
    simp only [if_neg h126]
    apply Ends.ite
    · intro h127
      simp only [if_pos h127]
      apply Ends.ite
      · intro hlen
        exact Ends.pure (if_pos hlen).symm
      · intro hlen
        apply Ends.byte_bind (by omega)
        apply Ends.byte_bind (by omega)
        apply Ends.byte_bind (by omega)
        apply Ends.byte_bind (by omega)
        exact Ends.pure (if_neg hlen).symm
    · intro h127
      simp only [if_neg h127]
      exact Ends.pure (if_neg (Int.not_lt.mpr h)).symm

/-- What a call on the buffer stores and returns. -/
def decoded (mem : Nat → UInt8) (buflen : Int) : Decoded :=
  if buflen < 2 then ⟨0, none, none⟩
  else if buflen < fieldEnd mem ∨ buflen < frameLen mem then ⟨0, some (mem 0 &&& 0x0F), none⟩
  else ⟨frameLen mem, some (mem 0 &&& 0x0F), some (payloadStart mem, payloadLen mem)⟩

theorem ends_wsFrameDecode :
    Ends (fun i : Nat => (i : Int) < buflen) mem (wsFrameDecode buflen)
      (· = decoded mem buflen) := by
  rw [wsFrameDecode, decoded]
  apply Ends.ite
  · intro hlen
    exact Ends.pure (if_pos hlen).symm
  · intro hlen
    rw [if_neg hlen]
    apply Ends.byte_bind (by omega)
    apply Ends.byte_bind (by omega)
    apply (ends_lengthField (by omega)).bind
    rintro _ rfl
    by_cases hfield : buflen < fieldEnd mem
    · simp only [if_pos hfield, if_pos (Or.inl hfield)]
      exact Ends.pure rfl
    · have hstart : (if mem 1 &&& 0x80 ≠ 0 then fieldEnd mem + 4 else fieldEnd mem)
          = payloadStart mem := rfl
      have hframe : asInt32 (payloadStart mem + asInt32 (payloadLen mem).toNat) = frameLen mem :=
        asInt32_add_asInt32 _ _
      rw [if_neg hfield]
      simp only [hstart, hframe, hfield, false_or]
      apply Ends.ite
      · intro h
        exact Ends.pure (if_pos h).symm
      · intro h
        exact Ends.pure (if_neg h).symm

theorem value_wsFrameDecode : (wsFrameDecode buflen).value mem = some (decoded mem buflen) :=
  ends_wsFrameDecode.value_eq

/-- A frame that was read whole is not longer than the buffer. -/
theorem decoded_ret_le (h : 0 < (decoded mem buflen).ret) : (decoded mem buflen).ret ≤ buflen := by
  simp only [decoded] at h ⊢
  split_ifs at h ⊢ with hlen hframe
  · exact absurd h (Int.lt_irrefl 0)
  · exact absurd h (Int.lt_irrefl 0)
  · dsimp only
    exact Int.not_lt.mp (not_or.mp hframe).2

/-- A prefix without the whole frame is not accepted. -/
theorem decoded_ret_eq_zero (h : buflen < frameLen mem) : (decoded mem buflen).ret = 0 := by
  rw [decoded, if_pos (Or.inr h)]
  split <;> rfl

theorem decoded_of_frameLen_le (hfield : fieldEnd mem ≤ buflen) (h : frameLen mem ≤ buflen) :
    decoded mem buflen
      = ⟨frameLen mem, some (mem 0 &&& 0x0F), some (payloadStart mem, payloadLen mem)⟩ := by
  have := two_le_fieldEnd mem
  rw [decoded, if_neg (by omega),
    if_neg (not_or.mpr ⟨Int.not_lt.mpr hfield, Int.not_lt.mpr h⟩)]

/-- Where header and payload are short of the largest `int`, so is the frame. -/
theorem frameLen_eq (h : payloadStart mem + (payloadLen mem).toNat < 2147483648) :
    frameLen mem = payloadStart mem + (payloadLen mem).toNat :=
  asInt32_eq (by omega) (by omega)

theorem frameLen_wrapped (h : 2147483648 ≤ payloadStart mem + (payloadLen mem).toNat) :
    frameLen mem = payloadStart mem + (payloadLen mem).toNat - 4294967296 := by
  have hlen : (payloadLen mem).toNat < 4294967296 := (payloadLen mem).toNat_lt
  have hstart := payloadStart_le mem
  exact asInt32_wrapped (by omega) (by omega)

end Decode

/-! ## The receive loop -/

/-- Where the loop over the frames in `rxbuf` stops: at an offset, or with a frame that closes
the connection. -/
def drain (mem : Nat → UInt8) (accum : Int) : Nat → Int → Option (Option Int)
  | 0, _ => none
  | fuel + 1, offset =>
      if offset < accum then
        ((wsFrameDecode (accum - offset)).value fun i => mem (offset.toNat + i)).bind fun d =>
          if d.ret ≤ 0 then some (some offset)
          else if d.opcode = some 0x8 then some none
          else drain mem accum fuel (offset + d.ret)
      else some (some offset)

/-- The loop stops before the end of what was received, each frame one byte further at least. -/
theorem drain_returns (mem : Nat → UInt8) {accum : Int} {fuel : Nat} {offset : Int}
    (hoffset : offset ≤ accum) (hfuel : accum - offset < fuel) :
    Returns (drain mem accum fuel offset)
      fun stop => ∀ last, stop = some last → offset ≤ last ∧ last ≤ accum := by
  induction fuel generalizing offset with
  | zero => omega
  | succ fuel ih =>
      rw [drain]
      split
      · rw [value_wsFrameDecode, Option.bind_some]
        split
        · apply Returns.some
          rintro _ ⟨⟩
          exact ⟨Int.le_refl _, hoffset⟩
        · have hret := decoded_ret_le (Int.not_le.mp ‹_›)
          split
          · exact Returns.some nofun
          · apply (ih (by omega) (by omega)).mono
            intro stop hstop last hlast
            obtain ⟨hfirst, hle⟩ := hstop last hlast
            exact ⟨by omega, hle⟩
      · apply Returns.some
        rintro _ ⟨⟩
        exact ⟨Int.le_refl _, hoffset⟩

/-- `rxbuf` and `rx_accum` -/
structure Rx where
  rxbuf : Nat → UInt8
  accum : Int

/-- What was received is shorter than `rxbuf`. -/
structure Rx.Fits (rx : Rx) : Prop where
  nonneg : 0 ≤ rx.accum
  below : rx.accum < 4096

/-- One round of the loop of `ws_connect`: the bytes of `net_tcp_recv` as far as there is space,
the frames, and what is left moved to the front. None inside means that the peer closed. -/
def receive (rx : Rx) (got : List UInt8) : Option (Option Rx) :=
  let got := got.take (4096 - rx.accum - 1).toNat
  let rxbuf := stored rx.rxbuf rx.accum.toNat got
  let accum := rx.accum + got.length
  (drain rxbuf accum (accum.toNat + 1) 0).map fun stop => stop.map fun offset =>
    ⟨fun i => if (i : Int) < accum - offset then rxbuf (i + offset.toNat) else rxbuf i,
      accum - offset⟩

theorem Rx.Fits.receive {rx : Rx} (h : rx.Fits) (got : List UInt8) :
    Returns (receive rx got) fun next => ∀ rx', next = some rx' → rx'.Fits := by
  obtain ⟨hnonneg, hbelow⟩ := h
  obtain ⟨took, htook⟩ : ∃ took, took = got.take (4096 - rx.accum - 1).toNat := ⟨_, rfl⟩
  have hgot : took.length ≤ (4096 - rx.accum - 1).toNat := by
    rw [htook]
    exact List.length_take_le _ _
  have hfuel : rx.accum + took.length - 0 < ((rx.accum + took.length).toNat + 1 : Nat) := by omega
  obtain ⟨stop, hstop, hlast⟩ := drain_returns (stored rx.rxbuf rx.accum.toNat took)
    (by omega : 0 ≤ rx.accum + took.length) hfuel
  subst htook
  refine ⟨_, congrArg (Option.map _) hstop, ?_⟩
  intro rx' hrx'
  obtain ⟨last, rfl, rfl⟩ := Option.map_eq_some_iff.mp hrx'
  obtain ⟨hfirst, hle⟩ := hlast last rfl
  exact ⟨by dsimp only; omega, by dsimp only; omega⟩

/-- The loop of `ws_connect` on what arrives, until the peer closes. -/
def receiveAll (rxbuf : Nat → UInt8) (pieces : List (List UInt8)) : Option (Option Rx) :=
  pieces.foldlM (fun rx got => match rx with
    | none => some none
    | some rx => receive rx got) (some ⟨rxbuf, 0⟩)

/-- Whatever arrives, what is kept stays shorter than `rxbuf`. -/
theorem receiveAll_fits (rxbuf : Nat → UInt8) (pieces : List (List UInt8)) :
    Returns (receiveAll rxbuf pieces) fun next => ∀ rx, next = some rx → rx.Fits := by
  apply Returns.foldlM
  · intro rx hrx got hgot
    cases rx with
    | none => exact Returns.some nofun
    | some rx => exact (hrx rx rfl).receive got
  · rintro _ ⟨⟩
    exact ⟨Int.le_refl 0, (by decide : (0 : Int) < 4096)⟩

/-! ## What the decoder makes of any bytes -/

/-- A call reads inside the buffer; what it accepts lies in the buffer, holds the payload and has
no accepted prefix; and the loop over these bytes ends with a rest that is in the buffer. -/
structure Robust (mem : Nat → UInt8) (buflen : Int) : Prop where
  reads : Stays (fun i : Nat => (i : Int) < buflen) (wsFrameDecode buflen) mem
  accepted : Returns ((wsFrameDecode buflen).value mem) fun d => d.ret ≠ 0 →
    (2 ≤ d.ret ∧ d.ret ≤ buflen) ∧
    (∃ start plen, d.payload = some (start, plen) ∧ start + plen.toNat ≤ d.ret) ∧
    ∀ m < d.ret, Returns ((wsFrameDecode m).value mem) (·.ret = 0)
  progress : 0 ≤ buflen → Returns (drain mem buflen (buflen.toNat + 1) 0)
    fun stop => ∀ offset, stop = some offset → 0 ≤ offset ∧ offset ≤ buflen

/-- The length field is not there yet, or header and payload together are no more than an `int`
can count, or they come to 0 as an `int`, or to more than the buffer has. -/
def LengthKept (mem : Nat → UInt8) (buflen : Int) : Prop :=
  let total := payloadStart mem + (payloadLen mem).toNat
  buflen < fieldEnd mem ∨ total < 2147483648 ∨ total = 4294967296 ∨
    (4294967296 < total ∧ buflen < total - 4294967296)

theorem frameLen_of_lengthKept {mem : Nat → UInt8} {buflen : Int} (h : LengthKept mem buflen)
    (hfield : fieldEnd mem ≤ buflen) (hframe : frameLen mem ≤ buflen) (hzero : frameLen mem ≠ 0) :
    frameLen mem = payloadStart mem + (payloadLen mem).toNat := by
  by_cases htotal : payloadStart mem + (payloadLen mem).toNat < 2147483648
  · exact frameLen_eq htotal
  · have hwrapped := frameLen_wrapped (Nat.not_lt.mp htotal)
    rcases h with h | h | h | ⟨h, hshort⟩
    all_goals omega

theorem lengthKept_of_robust {mem : Nat → UInt8} {buflen : Int} (h : Robust mem buflen) :
    LengthKept mem buflen := by
  obtain ⟨d, hd, haccepted⟩ := h.accepted
  obtain rfl : decoded mem buflen = d := Option.some.inj (value_wsFrameDecode.symm.trans hd)
  by_contra hkept
  simp only [LengthKept, not_or, not_and] at hkept
  obtain ⟨hfield, htotal, hzero, hlong⟩ := hkept
  have hwrapped := frameLen_wrapped (Nat.not_lt.mp htotal)
  have hframe : frameLen mem ≤ buflen := by omega
  rw [decoded_of_frameLen_le (Int.not_lt.mp hfield) hframe] at haccepted
  obtain ⟨-, ⟨start, plen, hpayload, hinside⟩, -⟩ := haccepted (by dsimp only; omega)
  obtain ⟨rfl, rfl⟩ := Prod.mk.inj (Option.some.inj hpayload)
  dsimp only at hinside
  omega

/-- A masked frame of 10 bytes that says to hold nearly 2 ^ 32. -/
def hostileFrame (i : Nat) : UInt8 :=
  [0x81, 0xFF, 0, 0, 0, 0, 0xFF, 0xFF, 0xFF, 0xFA].getD i 0

section Encode
variable {wide : UInt32 → Nat → UInt32} {outmax : Int} {opcode : UInt8}
  {payload : Nat → UInt8} {plen : UInt32} {mask : Nat → UInt8} {mem : Nat → UInt8}

/-- Two bytes of a word below 2 ^ 16. -/
theorem word_of_two (h : plen ≤ 65535) :
    (plen >>> 8).toUInt8.toUInt32 <<< 8 ||| (plen &&& 0xFF).toUInt8.toUInt32 = plen := by
  have hlt : plen.toNat < 65536 := Nat.lt_succ_of_le (UInt32.le_iff_toNat_le.mp h)
  have h16 : plen >>> 16 = 0 := by
    apply UInt32.toNat_inj.mp
    rw [UInt32.toNat_shiftRight]
    exact Nat.shiftRight_eq_zero plen.toNat 16 hlt
  have h24 : plen >>> 24 = 0 := by
    apply UInt32.toNat_inj.mp
    rw [UInt32.toNat_shiftRight]
    exact Nat.shiftRight_eq_zero plen.toNat 24 (hlt.trans (by decide))
  calc
    (plen >>> 8).toUInt8.toUInt32 <<< 8 ||| (plen &&& 0xFF).toUInt8.toUInt32
        = ofLe32 plen.toUInt8 (plen >>> 8).toUInt8 (plen >>> 16).toUInt8 (plen >>> 24).toUInt8 := by
      rw [h16, h24, low_byte32, ofLe32, UInt32.or_comm]
      simp
    _ = plen := ofLe32_bytes plen

/-- The seven low bits beside the mask bit. -/
theorem length_bits {b : UInt8} (h : b < 128) :
    (0x80 ||| b) &&& 0x7F = b ∧ (0x80 ||| b) &&& 0x80 ≠ 0 := by
  have hbits : ∀ n < 128, (128 ||| n) &&& 127 = n ∧ (128 ||| n) &&& 128 = 128 := by decide
  obtain ⟨hlow, hhigh⟩ := hbits b.toNat (UInt8.lt_iff_toNat_lt.mp h)
  refine ⟨UInt8.toNat_inj.mp hlow, ?_⟩
  intro hzero
  exact absurd (hhigh.symm.trans (congrArg UInt8.toNat hzero)) (by decide)

/-- The four low bits beside the bit of the last frame. -/
theorem opcode_bits (opcode : UInt8) : (0x80 ||| (opcode &&& 0x0F)) &&& 0x0F = opcode &&& 0x0F := by
  have hbits : ∀ n < 16, (128 ||| n) &&& 15 = n := by decide
  have hlt : opcode.toNat &&& 15 < 16 := Nat.lt_succ_of_le Nat.and_le_right
  exact UInt8.toNat_inj.mp (hbits (opcode.toNat &&& 15) hlt)

theorem and_low_eq_self_iff {opcode : UInt8} : opcode &&& 0x0F = opcode ↔ opcode < 16 := by
  rw [← UInt8.toNat_inj, UInt8.lt_iff_toNat_lt, UInt8.toNat_and]
  change opcode.toNat &&& 15 = opcode.toNat ↔ opcode.toNat < 16
  rw [Nat.and_two_pow_sub_one_eq_mod opcode.toNat 4]
  omega

/-- The decoder finds in a header what the encoder put there. -/
theorem header_of_head (h : StandAt mem 0 (head wide opcode plen)) :
    mem 0 &&& 0x0F = opcode &&& 0x0F ∧ payloadLen mem = plen ∧
      payloadStart mem = headerLen plen := by
  obtain ⟨hfirst, hrest⟩ := standAt_cons.mp h
  refine ⟨by rw [hfirst, opcode_bits], ?_⟩
  split_ifs at hrest with hshort hword
  · -- The length itself stands beside the mask bit.
    have hle : plen.toNat ≤ 125 := UInt32.le_iff_toNat_le.mp hshort
    have hbyte : plen.toUInt8.toNat = plen.toNat := by
      rw [UInt32.toNat_toUInt8]
      exact Nat.mod_eq_of_lt (by omega)
    have hone : mem 1 = 0x80 ||| plen.toUInt8 := by
      rw [(standAt_cons.mp hrest).1, UInt32.toUInt8_or]
      rfl
    obtain ⟨hlow, hmask⟩ := length_bits (b := plen.toUInt8) (UInt8.lt_iff_toNat_lt.mpr (by
      rw [hbyte]
      exact Nat.lt_of_le_of_lt hle (by decide)))
    have hne : ∀ c : UInt8, 126 ≤ c.toNat → plen.toUInt8 ≠ c := by
      rintro c hc rfl
      omega
    rw [payloadLen, payloadStart, fieldEnd, hone, hlow, if_neg (hne 126 (by decide)),
      if_neg (hne 127 (by decide)), if_pos hmask, if_neg (hne 126 (by decide)),
      if_neg (hne 127 (by decide)), headerLen, if_pos hshort]
    refine ⟨?_, rfl⟩
    apply UInt32.toNat_inj.mp
    rw [UInt8.toNat_toUInt32, hbyte]
  · simp only [standAt_cons, Nat.reduceAdd] at hrest
    obtain ⟨hone, htwo, hthree, -⟩ := hrest
    simp only [payloadLen, payloadStart, fieldEnd, hone, htwo, hthree, headerLen, if_neg hshort,
      if_pos hword]
    exact ⟨word_of_two hword, rfl⟩
  · simp only [List.map_cons, standAt_cons, Nat.reduceAdd] at hrest
    obtain ⟨hone, -, -, -, -, h6, h7, h8, h9, -⟩ := hrest
    simp only [payloadLen, payloadStart, fieldEnd, hone, h6, h7, h8, h9, headerLen, if_neg hshort,
      if_neg hword]
    refine ⟨?_, rfl⟩
    simp only [shr, low_byte32]
    exact (be32_eq_ofLe32 _ _ _ _).trans (ofLe32_bytes plen)

/-- The bytes that a call writes. -/
def frame (wide : UInt32 → Nat → UInt32) (opcode : UInt8) (payload : Nat → UInt8) (plen : UInt32)
    (mask : Nat → UInt8) : List UInt8 :=
  head wide opcode plen ++ [mask 0, mask 1, mask 2, mask 3] ++
    (List.range plen.toNat).map fun j => payload j ^^^ mask (j % 4)

theorem length_head (wide : UInt32 → Nat → UInt32) (opcode : UInt8) (plen : UInt32) :
    (head wide opcode plen).length + 4 = headerLen plen := by
  rw [head, headerLen]
  split_ifs <;> rfl

theorem length_frame :
    (frame wide opcode payload plen mask).length = headerLen plen + plen.toNat := by
  simp only [frame, List.length_append, List.length_map, List.length_range]
  rw [← length_head wide opcode]
  rfl

/-- What the decoder makes of a frame whose length an `int` can count. -/
theorem decoded_of_frame (h : StandAt mem 0 (frame wide opcode payload plen mask))
    (hlen : headerLen plen + plen.toNat < 2147483648) :
    decoded mem (frame wide opcode payload plen mask).length
      = ⟨(frame wide opcode payload plen mask).length, some (opcode &&& 0x0F),
        some (headerLen plen, plen)⟩ := by
  obtain ⟨hheader, -⟩ := standAt_append.mp h
  obtain ⟨hhead, -⟩ := standAt_append.mp hheader
  obtain ⟨hopcode, hplen, hstart⟩ := header_of_head hhead
  have hframe : frameLen mem = (frame wide opcode payload plen mask).length := by
    rw [length_frame, frameLen_eq (by rw [hstart, hplen]; exact hlen), hstart, hplen,
      Nat.cast_add]
  have hfield : fieldEnd mem ≤ (frame wide opcode payload plen mask).length := by
    have := fieldEnd_le_payloadStart mem
    rw [length_frame]
    omega
  rw [decoded_of_frameLen_le (by exact_mod_cast hfield) hframe.le, hframe, hopcode, hstart, hplen]

/-- The payload behind the header, masked. -/
theorem payload_of_frame (h : StandAt mem 0 (frame wide opcode payload plen mask)) {j : Nat}
    (hj : j < plen.toNat) : mem (headerLen plen + j) ^^^ mask (j % 4) = payload j := by
  obtain ⟨-, hpayload⟩ := standAt_append.mp h
  have hstart : (head wide opcode plen ++ [mask 0, mask 1, mask 2, mask 3]).length
      = headerLen plen := by
    rw [← length_head wide opcode, List.length_append]
    rfl
  have hbyte := hpayload j (by simpa using hj)
  rw [hstart, Nat.zero_add, List.getElem_map, List.getElem_range] at hbyte
  rw [hbyte, UInt8.xor_assoc, UInt8.xor_self, UInt8.xor_zero]

end Encode

/-- A call returns -1 and writes nothing, or writes a frame that fits, and the decoder makes of it
what was encoded. -/
def RoundTrips (wide : UInt32 → Nat → UInt32) (outmax : Int32) (opcode : UInt8)
    (payload : Nat → UInt8) (plen : UInt32) (mask : Nat → UInt8) : Prop :=
  Whenever (wsFrameEncode wide outmax.toInt opcode payload plen mask) fun bytes =>
    bytes.length ≤ outmax.toInt ∧
    ∀ out, Returns ((wsFrameDecode bytes.length).value (stored out 0 bytes)) fun d =>
      d.ret = bytes.length ∧ d.opcode = some opcode ∧
      ∃ start, d.payload = some (start, plen) ∧
        ∀ j < plen.toNat, stored out 0 bytes (start + j) ^^^ mask (j % 4) = payload j

/-- The guard rejects the payload, or the opcode has four bits and the frame fits. -/
def FrameFits (outmax : Int32) (opcode : UInt8) (plen : UInt32) : Prop :=
  outmax.toInt < asInt32 (plen + 10).toNat ∨
    (opcode < 16 ∧ headerLen plen + plen.toNat ≤ outmax.toInt)

section RoundTrips
variable {wide : UInt32 → Nat → UInt32} {outmax : Int32} {opcode : UInt8}
  {payload : Nat → UInt8} {plen : UInt32} {mask : Nat → UInt8}

theorem frameFits_of_roundTrips (h : RoundTrips wide outmax opcode payload plen mask) :
    FrameFits outmax opcode plen := by
  apply Classical.or_iff_not_imp_left.mpr
  intro hguard
  obtain ⟨hlen, hdecode⟩ := h (frame wide opcode payload plen mask) (if_neg hguard)
  have hlt := outmax.toInt_lt
  have hlong : headerLen plen + plen.toNat ≤ outmax.toInt := by
    rw [← Nat.cast_add]
    exact (congrArg Nat.cast length_frame).symm.trans_le hlen
  obtain ⟨d, hd, -, hopcode, -⟩ := hdecode fun _ => 0
  rw [value_wsFrameDecode, decoded_of_frame (standAt_stored _) (by omega)] at hd
  obtain rfl := Option.some.inj hd
  exact ⟨and_low_eq_self_iff.mp (Option.some.inj hopcode), hlong⟩

/-- Encoding and decoding give the payload back exactly where the guard rejects it or the frame
fits. -/
theorem roundTrips_iff (wide : UInt32 → Nat → UInt32) (outmax : Int32) (opcode : UInt8)
    (payload : Nat → UInt8) (plen : UInt32) (mask : Nat → UInt8) :
    RoundTrips wide outmax opcode payload plen mask ↔ FrameFits outmax opcode plen := by
  constructor
  · exact frameFits_of_roundTrips
  · intro h bytes hbytes
    simp only [wsFrameEncode, gt_iff_lt] at hbytes
    split_ifs at hbytes with hguard
    obtain rfl : frame wide opcode payload plen mask = bytes := Option.some.inj hbytes
    obtain ⟨hopcode, hlong⟩ := h.resolve_left hguard
    have hlt := outmax.toInt_lt
    have hlen : ((frame wide opcode payload plen mask).length : Int) ≤ outmax.toInt := by
      rw [length_frame, Nat.cast_add]
      exact hlong
    refine ⟨hlen, ?_⟩
    intro out
    refine ⟨_, value_wsFrameDecode, ?_⟩
    rw [decoded_of_frame (standAt_stored _) (by omega)]
    refine ⟨rfl, congrArg some (and_low_eq_self_iff.mpr hopcode), _, rfl, ?_⟩
    intro j hj
    exact payload_of_frame (standAt_stored _) hj

end RoundTrips

/-- A frame of 65550 bytes is written to a buffer of 65546. -/
theorem not_every_payload_roundTrips :
    ¬ ∀ wide outmax opcode payload plen mask,
      RoundTrips wide outmax opcode payload plen mask := by
  intro h
  have hfits := frameFits_of_roundTrips
    (h (fun x n => x >>> UInt32.ofNat (n % 32)) 65546 1 (fun _ => 0) 65536 fun _ => 0)
  revert hfits
  rw [FrameFits]
  decide

end OriaOS.WebSocket
