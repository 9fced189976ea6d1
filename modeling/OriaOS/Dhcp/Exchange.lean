import OriaOS.Lib.Reading
import Mathlib.Data.List.Find

/-!
# The DHCP exchange

`dhcp_request` over the frames received after the DISCOVER and after the REQUEST. The frames
are looked at in place, in a buffer whose bytes behind a frame are what earlier frames left
there. The address installed is the one the OFFER named, whatever the ACK says, and
`dhcp_opt` hands out a value whose length it does not compare with the options area.
-/

namespace OriaOS.Dhcp

open OriaOS.Lib OriaOS.Lib.Reading

abbrev Addr := Vector UInt8 4

/-- A received frame: the buffer, and the length the driver reports. -/
structure Frame where
  mem : Nat → UInt8
  len : Nat

/-- The addresses that `dhcp_request` sets. -/
structure Config where
  myIp : Addr
  gwIp : Addr

/-! ## Options -/

/-- The options start behind the Ethernet, IP and UDP headers and the fixed DHCP fields. -/
def optBase : Nat := 42 + 240

/-- `dhcp_opt`: where the value is and its length. What is handed out counts as read. -/
def dhcpOpt (optlen : Nat) (code : UInt8) : Nat → Nat → Reading Nat (Option (Nat × Nat))
  | 0, _ => stuck
  | fuel + 1, i =>
      if i < optlen then do
        let tag ← byte (optBase + i)
        if tag = 255 then pure none
        else if tag = 0 then dhcpOpt optlen code fuel (i + 1)
        else if optlen ≤ i + 1 then pure none
        else do
          let len ← byte (optBase + i + 1)
          if tag = code then
            lend (List.range' (optBase + i + 2) len.toNat) fun _ =>
              some (optBase + i + 2, len.toNat)
          else dhcpOpt optlen code fuel (i + 2 + len.toNat)
      else pure none

/-- The options of a frame. A round of the loop takes at least one byte. -/
def optReading (len : Nat) (code : UInt8) : Reading Nat (Option (Nat × Nat)) :=
  dhcpOpt (len - optBase) code (len - optBase + 1) 0

/-- The options in an area, without padding, up to its end mark. -/
def optOffsets (mem : Nat → UInt8) (optlen : Nat) : Nat → Nat → List Nat
  | 0, _ => []
  | fuel + 1, i =>
      if i < optlen then
        if mem (optBase + i) = 255 then []
        else if mem (optBase + i) = 0 then optOffsets mem optlen fuel (i + 1)
        else if optlen ≤ i + 1 then []
        else i :: optOffsets mem optlen fuel (i + 2 + (mem (optBase + i + 1)).toNat)
      else []

/-- The first option with a code: where its value is and its length. -/
def Frame.option (f : Frame) (code : UInt8) : Option (Nat × Nat) :=
  ((optOffsets f.mem (f.len - optBase) (f.len - optBase + 1) 0).find? fun i =>
    f.mem (optBase + i) = code).map fun i =>
      (optBase + i + 2, (f.mem (optBase + i + 1)).toNat)

/-- The first option with a code ends inside the frame. -/
def Frame.Fits (f : Frame) (code : UInt8) : Prop := ∀ v, f.option code = some v → v.1 + v.2 ≤ f.len

section Options
variable {mem : Nat → UInt8} {optlen fuel i : Nat} {code : UInt8}

/-- `dhcp_opt` finds the first option with the code. -/
theorem value_dhcpOpt (h : optlen - i < fuel) :
    (dhcpOpt optlen code fuel i).value mem
      = some (((optOffsets mem optlen fuel i).find? fun i => mem (optBase + i) = code).map
          fun i => (optBase + i + 2, (mem (optBase + i + 1)).toNat)) := by
  induction fuel generalizing i with
  | zero => omega
  | succ fuel ih =>
      rw [dhcpOpt, optOffsets]
      by_cases hi : i < optlen
      · rw [if_pos hi, if_pos hi, value_bind, value_byte, Option.bind_some]
        by_cases hend : mem (optBase + i) = 255
        · rw [if_pos hend, if_pos hend]
          rfl
        rw [if_neg hend, if_neg hend]
        by_cases hpad : mem (optBase + i) = 0
        · rw [if_pos hpad, if_pos hpad, ih (by omega)]
        rw [if_neg hpad, if_neg hpad]
        by_cases hcut : optlen ≤ i + 1
        · rw [if_pos hcut, if_pos hcut]
          rfl
        rw [if_neg hcut, if_neg hcut, value_bind, value_byte, Option.bind_some]
        by_cases hcode : mem (optBase + i) = code
        · rw [if_pos hcode, value_lend, List.find?_cons_of_pos (by simpa using hcode)]
          rfl
        · rw [if_neg hcode, List.find?_cons_of_neg (by simpa using hcode), ih (by omega)]
      · rw [if_neg hi, if_neg hi]
        rfl

/-- `dhcp_opt` hands out a value inside the area if the first option with the code ends
there. -/
theorem stays_dhcpOpt :
    Stays (· < optBase + optlen) (dhcpOpt optlen code fuel i) mem ↔
      ∀ q, (optOffsets mem optlen fuel i).find? (fun i => mem (optBase + i) = code) = some q →
        q + 2 + (mem (optBase + q + 1)).toNat ≤ optlen := by
  induction fuel generalizing i with
  | zero => simp [dhcpOpt, optOffsets]
  | succ fuel ih =>
      rw [dhcpOpt, optOffsets]
      by_cases hi : i < optlen
      · rw [if_pos hi, if_pos hi, stays_byte_bind]
        have hin : optBase + i < optBase + optlen := Nat.add_lt_add_left hi _
        by_cases hend : mem (optBase + i) = 255
        · simp [hend, hin]
        rw [if_neg hend, if_neg hend]
        by_cases hpad : mem (optBase + i) = 0
        · rw [if_pos hpad, if_pos hpad, ih, and_iff_right hin]
        rw [if_neg hpad, if_neg hpad]
        by_cases hcut : optlen ≤ i + 1
        · simp [hcut, hin]
        have hin' : optBase + i + 1 < optBase + optlen := by omega
        rw [if_neg hcut, if_neg hcut, stays_byte_bind, and_iff_right hin, and_iff_right hin']
        by_cases hcode : mem (optBase + i) = code
        · rw [if_pos hcode, List.find?_cons_of_pos (by simpa using hcode), stays_lend,
            range'_below]
          simp only [Option.some.injEq, forall_eq']
          omega
        · rw [if_neg hcode, List.find?_cons_of_neg (by simpa using hcode), ih]
      · simp [hi]

end Options

section Frame
variable {f : Frame} {code : UInt8}

theorem value_optReading (f : Frame) (code : UInt8) :
    (optReading f.len code).value f.mem = some (f.option code) :=
  value_dhcpOpt (by omega)

theorem stays_optReading (hlen : optBase ≤ f.len) :
    Stays (· < f.len) (optReading f.len code) f.mem ↔ f.Fits code := by
  have harea : optBase + (f.len - optBase) = f.len := by omega
  have h : Stays (· < optBase + (f.len - optBase))
      (dhcpOpt (f.len - optBase) code (f.len - optBase + 1) 0) f.mem ↔ _ := stays_dhcpOpt
  rw [harea] at h
  rw [optReading, h, Frame.Fits, Frame.option]
  simp only [Option.map_eq_some_iff, forall_exists_index, and_imp, forall_apply_eq_imp_iff₂]
  constructor
  · intro h q hq
    have := h q hq
    omega
  · intro h q hq
    have := h q hq
    omega

end Frame

/-! ## Frames -/

/-- A chain of comparisons that stops at the first byte that differs. -/
def expect : List (Nat × UInt8) → Reading Nat Bool
  | [] => pure true
  | (i, b) :: rest => do
      let c ← byte i
      if c = b then expect rest else pure false

/-- `get_be32`. -/
def getBe32 (i : Nat) : Reading Nat UInt32 := do
  let a ← byte i
  let b ← byte (i + 1)
  let c ← byte (i + 2)
  let d ← byte (i + 3)
  pure (a.toUInt32 <<< 24 ||| b.toUInt32 <<< 16 ||| c.toUInt32 <<< 8 ||| d.toUInt32)

/-- Four bytes, as `mc` copies them. -/
def addrReading (i : Nat) : Reading Nat Addr := do
  let a ← byte i
  let b ← byte (i + 1)
  let c ← byte (i + 2)
  let d ← byte (i + 3)
  pure #v[a, b, c, d]

/-- The bytes that make a frame IPv4, UDP from port 67 to 68, and a BOOTP reply. -/
def replyFields : List (Nat × UInt8) :=
  [(12, 8), (13, 0), (23, 17), (34, 0), (35, 67), (36, 0), (37, 68), (42, 2)]

/-- The magic cookie in front of the options. -/
def cookie : List (Nat × UInt8) := [(278, 99), (279, 130), (280, 83), (281, 99)]

/-- `dhcp_request`, the tests on a received frame up to its options. -/
def headerReading (xid : UInt32) (len : Nat) : Reading Nat Bool :=
  if len < 42 + 240 + 5 then pure false
  else do
    let fields ← expect replyFields
    if fields then do
      let x ← getBe32 46
      if x = xid then expect cookie else pure false
    else pure false

/-- `dhcp_request`, the tests on a received frame, with the message type waited for. -/
def replyReading (xid : UInt32) (type : UInt8) (len : Nat) : Reading Nat Bool := do
  let reply ← headerReading xid len
  if reply then do
    let mt ← optReading len 53
    match mt with
    | none => pure false
    | some (p, _) => do
        let t ← byte p
        pure (decide (t = type))
  else pure false

/-- `dhcp_request`, an OFFER: the address offered and the server. -/
def offerReading (xid : UInt32) (len : Nat) : Reading Nat (Option (Addr × Addr)) := do
  let reply ← replyReading xid 2 len
  if reply then do
    let offerIp ← addrReading 58
    let sid ← optReading len 54
    let serverIp ← addrReading (match sid with
      | some (p, 4) => p
      | _ => 26)
    pure (some (offerIp, serverIp))
  else pure none

/-- `dhcp_request`, the first address of an option of an ACK, of at least four bytes. -/
def firstAddr (len : Nat) (code : UInt8) : Reading Nat Addr := do
  let v ← optReading len code
  match v with
  | none => pure (Vector.replicate 4 0)
  | some (p, vl) => if 4 ≤ vl then addrReading p else pure (Vector.replicate 4 0)

/-- `dhcp_request`, an ACK: gateway and name server. -/
def ackReading (xid : UInt32) (len : Nat) : Reading Nat (Option (Addr × Addr)) := do
  let reply ← replyReading xid 5 len
  if reply then do
    let gw ← firstAddr len 3
    let dns ← firstAddr len 6
    pure (some (gw, dns))
  else pure none

/-- What a frame is taken for. -/
def Frame.read {α : Type} (f : Frame) (x : Nat → Reading Nat (Option α)) : Option α :=
  ((x f.len).value f.mem).join

/-- The frames looked at until one is taken. -/
def lookedAt {α : Type} (x : Nat → Reading Nat (Option α)) : List Frame → List Frame
  | [] => []
  | f :: fs => f :: if (f.read x).isSome then [] else lookedAt x fs

/-- `dhcp_request`: what it returns and the addresses afterwards, for the frames received in
time after the DISCOVER and after the REQUEST. -/
def dhcpRequest (present : Bool) (xid : UInt32) (cfg : Config) (offers acks : List Frame) :
    Int × Config :=
  if present then
    match offers.findSome? (·.read (offerReading xid)) with
    | none => (0, cfg)
    | some (offerIp, _) =>
        match acks.findSome? (·.read (ackReading xid)) with
        | none => (0, cfg)
        | some (gw, _) =>
            (1, { myIp := offerIp, gwIp := if gw[0] ≠ 0 then gw else cfg.gwIp })
  else (0, cfg)

/-! ## What the exchange owes -/

/-- Four bytes of a frame. -/
def Frame.addr (f : Frame) (i : Nat) : Addr :=
  #v[f.mem i, f.mem (i + 1), f.mem (i + 2), f.mem (i + 3)]

/-- The address that a DHCP message gives the client. -/
def Frame.yiaddr (f : Frame) : Addr := f.addr 58

/-- The router of a message: the first address of option 3. -/
def Frame.router (f : Frame) : Option Addr :=
  (f.option 3).bind fun v => if 4 ≤ v.2 then some (f.addr v.1) else none

/-- A DHCP reply with the transaction id, of the length `dhcp_request` wants. -/
structure Frame.IsReply (f : Frame) (xid : UInt32) : Prop where
  long : 42 + 240 + 5 ≤ f.len
  fields : ∀ e ∈ replyFields ++ cookie, f.mem e.1 = e.2
  id : (f.mem 46).toUInt32 <<< 24 ||| (f.mem 47).toUInt32 <<< 16 ||| (f.mem 48).toUInt32 <<< 8
    ||| (f.mem 49).toUInt32 = xid

/-- A message of a type. -/
structure Frame.IsMessage (f : Frame) (xid : UInt32) (type : UInt8) : Prop where
  reply : f.IsReply xid
  type : ∃ v, f.option 53 = some v ∧ f.mem v.1 = type

/-- The frames looked at while waiting for the ACK: none if there was no OFFER. -/
def lookedAtAcks (xid : UInt32) (offers acks : List Frame) : List Frame :=
  if (offers.findSome? (·.read (offerReading xid))).isSome then lookedAt (ackReading xid) acks
  else []

/-- Every frame is read inside only, the addresses are those of an ACK when the exchange
succeeded, and they are as before when it failed. -/
structure Exchanged (present : Bool) (xid : UInt32) (cfg : Config) (offers acks : List Frame) :
    Prop where
  offers_inside : present → ∀ f ∈ lookedAt (offerReading xid) offers,
    Ends (· < f.len) f.mem (offerReading xid f.len) fun _ => True
  acks_inside : present → ∀ f ∈ lookedAtAcks xid offers acks,
    Ends (· < f.len) f.mem (ackReading xid f.len) fun _ => True
  installed : (dhcpRequest present xid cfg offers acks).1 = 1 →
    ∃ f ∈ lookedAtAcks xid offers acks, f.IsMessage xid 5 ∧
      (dhcpRequest present xid cfg offers acks).2.myIp = f.yiaddr ∧
      ∀ gw, f.router = some gw → (dhcpRequest present xid cfg offers acks).2.gwIp = gw
  unchanged : (dhcpRequest present xid cfg offers acks).1 = 0 →
    (dhcpRequest present xid cfg offers acks).2 = cfg

/-- The options that are looked at in a frame end inside it: the message type, with at least
one byte, and in a message of the type waited for the options that are used. -/
structure Frame.OptionsFit (f : Frame) (xid : UInt32) (type : UInt8) (codes : List UInt8) :
    Prop where
  kind : f.IsReply xid → f.Fits 53 ∧ ∀ v, f.option 53 = some v → v.1 < f.len
  used : f.IsMessage xid type → ∀ code ∈ codes, f.Fits code

/-- What makes an exchange sound: options that fit, an ACK for the address offered, and a
router whose first byte is not 0, or which is the gateway already. -/
structure Sound (xid : UInt32) (cfg : Config) (offers acks : List Frame) : Prop where
  offers_fit : ∀ f ∈ lookedAt (offerReading xid) offers, f.OptionsFit xid 2 [54]
  acks_fit : ∀ f ∈ lookedAtAcks xid offers acks, f.OptionsFit xid 5 [3, 6]
  same : ∀ o ∈ lookedAt (offerReading xid) offers, o.IsMessage xid 2 →
    ∀ a ∈ lookedAtAcks xid offers acks, a.IsMessage xid 5 → a.yiaddr = o.yiaddr
  gateway : ∀ a ∈ lookedAtAcks xid offers acks, a.IsMessage xid 5 →
    ∀ gw, a.router = some gw → gw[0] ≠ 0 ∨ gw = cfg.gwIp

/-! ## One frame -/

section Reads
variable {f : Frame} {xid : UInt32} {type : UInt8} {mem : Nat → UInt8} {len : Nat}

theorem value_expect (l : List (Nat × UInt8)) :
    (expect l).value mem = some (decide (∀ e ∈ l, mem e.1 = e.2)) := by
  induction l with
  | nil => rfl
  | cons e l ih =>
      obtain ⟨i, b⟩ := e
      rw [expect, value_bind, value_byte, Option.bind_some]
      by_cases hb : mem i = b <;> simp [hb, ih]

theorem stays_expect {l : List (Nat × UInt8)} (hl : ∀ e ∈ l, e.1 < len) :
    Stays (· < len) (expect l) mem := by
  induction l with
  | nil => exact stays_pure true
  | cons e l ih =>
      obtain ⟨hi, hl⟩ := List.forall_mem_cons.mp hl
      refine stays_byte_bind.mpr ⟨hi, stays_ite.mpr ⟨fun _ => ih hl, fun _ => stays_pure _⟩⟩

theorem value_getBe32 (i : Nat) : (getBe32 i).value mem = some ((mem i).toUInt32 <<< 24 |||
    (mem (i + 1)).toUInt32 <<< 16 ||| (mem (i + 2)).toUInt32 <<< 8 ||| (mem (i + 3)).toUInt32) :=
  rfl

theorem value_addrReading (f : Frame) (i : Nat) : (addrReading i).value f.mem = some (f.addr i) :=
  rfl

theorem stays_addrReading {i : Nat} : Stays (· < len) (addrReading i) mem ↔ i + 4 ≤ len := by
  simp only [addrReading, stays_byte_bind, stays_pure, and_true]
  omega

theorem value_headerReading (f : Frame) (xid : UInt32) :
    ∃ b, (headerReading xid f.len).value f.mem = some b ∧ (b = true ↔ f.IsReply xid) := by
  rw [headerReading]
  by_cases hlen : f.len < 42 + 240 + 5
  · rw [if_pos hlen]
    exact ⟨false, rfl, iff_of_false nofun fun h => absurd h.long (Nat.not_le.mpr hlen)⟩
  rw [if_neg hlen, value_bind, value_expect, Option.bind_some]
  by_cases hfields : ∀ e ∈ replyFields, f.mem e.1 = e.2
  · rw [decide_eq_true hfields, if_pos rfl, value_bind, value_getBe32, Option.bind_some]
    split
    · refine ⟨_, value_expect _, ?_⟩
      rw [decide_eq_true_iff]
      constructor
      · exact fun hcookie => ⟨Nat.le_of_not_lt hlen,
          List.forall_mem_append.mpr ⟨hfields, hcookie⟩, ‹_›⟩
      · exact fun h => (List.forall_mem_append.mp h.fields).2
    · exact ⟨false, rfl, iff_of_false nofun fun h => absurd h.id ‹_›⟩
  · rw [decide_eq_false hfields]
    exact ⟨false, rfl, iff_of_false nofun fun h =>
      absurd (List.forall_mem_append.mp h.fields).1 hfields⟩

/-- The fixed fields lie in every frame of the length wanted. -/
theorem stays_headerReading (f : Frame) (xid : UInt32) :
    Stays (· < f.len) (headerReading xid f.len) f.mem := by
  rw [headerReading]
  refine stays_ite.mpr ⟨fun _ => stays_pure _, fun hlen => ?_⟩
  have hbelow : ∀ e ∈ replyFields ++ cookie, e.1 < f.len := by
    have h287 : ∀ e ∈ replyFields ++ cookie, e.1 < 287 := by decide
    exact fun e he => Nat.lt_of_lt_of_le (h287 e he) (Nat.le_of_not_lt hlen)
  obtain ⟨hfields, hcookie⟩ := List.forall_mem_append.mp hbelow
  refine stays_bind.mpr ⟨stays_expect hfields, fun _ _ => stays_ite.mpr ⟨fun _ => ?_,
    fun _ => stays_pure _⟩⟩
  refine stays_bind.mpr ⟨?_, fun _ _ => stays_ite.mpr ⟨fun _ => stays_expect hcookie,
    fun _ => stays_pure _⟩⟩
  simp only [getBe32, stays_byte_bind, stays_pure, and_true]
  omega

/-- The tests on a frame tell whether it is a message of the type. -/
theorem value_replyReading (f : Frame) (xid : UInt32) (type : UInt8) :
    ∃ b, (replyReading xid type f.len).value f.mem = some b ∧
      (b = true ↔ f.IsMessage xid type) := by
  obtain ⟨b, hvalue, hreply⟩ := value_headerReading f xid
  rw [replyReading, value_bind, hvalue, Option.bind_some]
  cases b with
  | false => exact ⟨false, rfl, iff_of_false nofun fun h => nomatch hreply.mpr h.reply⟩
  | true =>
      rw [if_pos rfl, value_bind, value_optReading, Option.bind_some]
      cases hoption : f.option 53 with
      | none =>
          refine ⟨false, rfl, iff_of_false nofun ?_⟩
          rintro ⟨-, v, hv, -⟩
          cases hoption.symm.trans hv
      | some v =>
          refine ⟨_, rfl, ?_⟩
          rw [decide_eq_true_iff]
          constructor
          · exact fun ht => ⟨hreply.mp rfl, v, hoption, ht⟩
          · rintro ⟨-, w, hw, ht⟩
            obtain rfl := Option.some.inj (hoption.symm.trans hw)
            exact ht

/-- They read inside the frame if the message type lies there. -/
theorem stays_replyReading (f : Frame) (xid : UInt32) (type : UInt8) :
    Stays (· < f.len) (replyReading xid type f.len) f.mem ↔
      (f.IsReply xid → f.Fits 53 ∧ ∀ v, f.option 53 = some v → v.1 < f.len) := by
  obtain ⟨b, hvalue, hreply⟩ := value_headerReading f xid
  rw [replyReading, stays_bind_value hvalue, and_iff_right (stays_headerReading f xid)]
  cases b with
  | false => exact iff_of_true (stays_pure _) fun h => nomatch hreply.mpr h
  | true =>
      have hlen : optBase ≤ f.len := Nat.le_trans (by decide) (hreply.mp rfl).long
      rw [if_pos rfl, stays_bind_value (value_optReading f 53), stays_optReading hlen,
        forall_prop_of_true (hreply.mp rfl)]
      cases f.option 53 with
      | none => simp
      | some v => simp

/-- The first address of an option is that of the router for option 3. -/
theorem value_firstAddr (f : Frame) (code : UInt8) :
    (firstAddr f.len code).value f.mem = some ((((f.option code).bind fun v =>
      if 4 ≤ v.2 then some (f.addr v.1) else none)).getD (Vector.replicate 4 0)) := by
  rw [firstAddr, value_bind, value_optReading, Option.bind_some]
  cases f.option code with
  | none => rfl
  | some v =>
      change (if 4 ≤ v.2 then addrReading v.1 else pure _ : Reading Nat Addr).value f.mem = _
      rw [Option.bind_some]
      split <;> rfl

theorem stays_firstAddr {code : UInt8} (hlen : optBase ≤ f.len) :
    Stays (· < f.len) (firstAddr f.len code) f.mem ↔ f.Fits code := by
  rw [firstAddr, stays_bind_value (value_optReading f code), stays_optReading hlen,
    and_iff_left_iff_imp]
  intro hfits
  cases hoption : f.option code with
  | none => exact stays_pure _
  | some v =>
      have := hfits v hoption
      exact stays_ite.mpr ⟨fun h4 => stays_addrReading.mpr (by omega), fun _ => stays_pure _⟩

section Replied
variable {α : Type} {k : Reading Nat (Option α)}

/-- What is read of a frame behind the tests is read of the messages of the type. -/
theorem value_replied {P : α → Prop} (hk : ∃ v, k.value f.mem = some (some v) ∧ P v) :
    ∃ v, (replyReading xid type f.len >>= fun reply => if reply then k else pure none).value f.mem
        = some v ∧
      (v.isSome ↔ f.IsMessage xid type) ∧ ∀ o, v = some o → P o := by
  obtain ⟨b, hvalue, hmessage⟩ := value_replyReading f xid type
  rw [value_bind, hvalue, Option.bind_some]
  cases b with
  | false => exact ⟨none, rfl, iff_of_false nofun (fun h => nomatch hmessage.mpr h), nofun⟩
  | true =>
      obtain ⟨v, hv, hP⟩ := hk
      refine ⟨some v, hv, iff_of_true rfl (hmessage.mp rfl), ?_⟩
      rintro _ ⟨⟩
      exact hP

/-- It is read inside the frame if the options used lie there. -/
theorem stays_replied {codes : List UInt8} (hk : f.IsMessage xid type →
      (Stays (· < f.len) k f.mem ↔ ∀ code ∈ codes, f.Fits code)) :
    Stays (· < f.len) (replyReading xid type f.len >>= fun reply => if reply then k else pure none)
      f.mem ↔ f.OptionsFit xid type codes := by
  obtain ⟨b, hvalue, hmessage⟩ := value_replyReading f xid type
  rw [stays_bind_value hvalue, stays_replyReading]
  cases b with
  | false =>
      have hnot : ¬ f.IsMessage xid type := fun h => nomatch hmessage.mpr h
      rw [if_neg Bool.false_ne_true, and_iff_left (stays_pure _)]
      exact ⟨fun h => ⟨h, fun h' => absurd h' hnot⟩, Frame.OptionsFit.kind⟩
  | true =>
      have his := hmessage.mp rfl
      rw [if_pos rfl, hk his]
      exact ⟨fun h => ⟨h.1, fun _ => h.2⟩, fun h => ⟨h.kind, h.used his⟩⟩

end Replied

/-- An OFFER names the address offered. -/
theorem value_offerReading (f : Frame) (xid : UInt32) :
    ∃ v, (offerReading xid f.len).value f.mem = some v ∧ (v.isSome ↔ f.IsMessage xid 2) ∧
      ∀ o, v = some o → o.1 = f.yiaddr := by
  apply value_replied
  rw [value_bind, value_addrReading, Option.bind_some, value_bind, value_optReading,
    Option.bind_some]
  exact ⟨_, rfl, rfl⟩

/-- An OFFER is read inside the frame if the options used lie there. -/
theorem stays_offerReading (f : Frame) (xid : UInt32) :
    Stays (· < f.len) (offerReading xid f.len) f.mem ↔ f.OptionsFit xid 2 [54] := by
  apply stays_replied
  intro his
  have hlong := his.reply.long
  rw [List.forall_mem_singleton, stays_bind_value (value_addrReading f 58), stays_addrReading,
    stays_bind_value (value_optReading f 54),
    stays_optReading (Nat.le_trans (by decide) hlong)]
  constructor
  · exact fun h => h.2.1
  · intro hsid
    refine ⟨by omega, hsid, stays_bind.mpr ⟨?_, fun _ _ => stays_pure _⟩⟩
    rw [stays_addrReading]
    split
    · exact hsid _ ‹_›
    · omega

/-- An ACK gives the router. -/
theorem value_ackReading (f : Frame) (xid : UInt32) :
    ∃ v, (ackReading xid f.len).value f.mem = some v ∧ (v.isSome ↔ f.IsMessage xid 5) ∧
      ∀ o, v = some o → o.1 = f.router.getD (Vector.replicate 4 0) := by
  apply value_replied
  have hrouter : (firstAddr f.len 3).value f.mem
      = some (f.router.getD (Vector.replicate 4 0)) := by
    rw [value_firstAddr, Frame.router]
  rw [value_bind, hrouter, Option.bind_some, value_bind, value_firstAddr, Option.bind_some,
    value_pure]
  generalize f.router.getD (Vector.replicate 4 0) = gw
  exact ⟨_, rfl, rfl⟩

/-- An ACK is read inside the frame if the options used lie there. -/
theorem stays_ackReading (f : Frame) (xid : UInt32) :
    Stays (· < f.len) (ackReading xid f.len) f.mem ↔ f.OptionsFit xid 5 [3, 6] := by
  apply stays_replied
  intro his
  have hlen : optBase ≤ f.len := Nat.le_trans (by decide) his.reply.long
  rw [List.forall_mem_cons, List.forall_mem_singleton, stays_bind_value (value_firstAddr f 3),
    stays_firstAddr hlen, stays_bind_value (value_firstAddr f 6), stays_firstAddr hlen]
  exact and_congr_right fun _ => and_iff_left (stays_pure _)

end Reads

/-! ## The exchange -/

section Run
variable {α : Type} {x : Nat → Reading Nat (Option α)} {fs : List Frame} {f : Frame}

/-- A frame is taken if it is looked at and taken for something. -/
theorem findSome_of_looked (hf : f ∈ lookedAt x fs) (h : (f.read x).isSome) :
    fs.findSome? (·.read x) = f.read x := by
  induction fs with
  | nil => cases hf
  | cons g fs ih =>
      rw [lookedAt, List.mem_cons] at hf
      cases hg : g.read x with
      | some v =>
          rw [hg, if_pos (show (some v).isSome = true from rfl)] at hf
          obtain rfl := hf.resolve_right List.not_mem_nil
          rw [List.findSome?_cons_of_isSome (by rw [hg]; rfl)]
      | none =>
          rw [hg, if_neg (by simp)] at hf
          rcases hf with rfl | hf
          · rw [hg] at h
            cases h
          · rw [List.findSome?_cons_of_isNone (by rw [hg]; rfl), ih hf]

theorem exists_looked {v : α} (h : fs.findSome? (·.read x) = some v) :
    ∃ f ∈ lookedAt x fs, f.read x = some v := by
  induction fs with
  | nil => cases h
  | cons g fs ih =>
      rw [lookedAt]
      cases hg : g.read x with
      | some w =>
          rw [List.findSome?_cons_of_isSome (by rw [hg]; rfl), hg] at h
          exact ⟨g, List.mem_cons_self, hg.trans h⟩
      | none =>
          rw [List.findSome?_cons_of_isNone (by rw [hg]; rfl)] at h
          obtain ⟨f, hf, hread⟩ := ih h
          refine ⟨f, List.mem_cons_of_mem _ ?_, hread⟩
          rw [if_neg (by simp)]
          exact hf

/-- Only one frame is taken. -/
theorem looked_unique {g : Frame} (hf : f ∈ lookedAt x fs) (hg : g ∈ lookedAt x fs)
    (hfs : (f.read x).isSome) (hgs : (g.read x).isSome) : f = g := by
  induction fs with
  | nil => cases hf
  | cons h fs ih =>
      rw [lookedAt, List.mem_cons] at hf hg
      by_cases hs : (h.read x).isSome
      · rw [if_pos hs] at hf hg
        obtain rfl := hf.resolve_right List.not_mem_nil
        obtain rfl := hg.resolve_right List.not_mem_nil
        rfl
      · rw [if_neg hs] at hf hg
        apply ih
        · exact hf.resolve_left fun h' => hs (h' ▸ hfs)
        · exact hg.resolve_left fun h' => hs (h' ▸ hgs)

end Run

section Exchange
variable {xid : UInt32} {cfg : Config} {offers acks : List Frame} {f o a : Frame}

theorem Frame.read_eq {α : Type} {x : Nat → Reading Nat (Option α)} {v : Option α}
    (hv : (x f.len).value f.mem = some v) : f.read x = v := by
  rw [Frame.read, hv]
  rfl

theorem read_offer (f : Frame) (xid : UInt32) :
    ((f.read (offerReading xid)).isSome ↔ f.IsMessage xid 2) ∧
      ∀ v, f.read (offerReading xid) = some v → v.1 = f.yiaddr := by
  obtain ⟨v, hv, hmessage, haddr⟩ := value_offerReading f xid
  rw [Frame.read_eq hv]
  exact ⟨hmessage, haddr⟩

theorem read_ack (f : Frame) (xid : UInt32) :
    ((f.read (ackReading xid)).isSome ↔ f.IsMessage xid 5) ∧
      ∀ v, f.read (ackReading xid) = some v → v.1 = f.router.getD (Vector.replicate 4 0) := by
  obtain ⟨v, hv, hmessage, haddr⟩ := value_ackReading f xid
  rw [Frame.read_eq hv]
  exact ⟨hmessage, haddr⟩

/-- The gateway after an ACK: its router, unless that starts with 0 or there is none. -/
def gatewayAfter (cfg : Config) (a : Frame) : Addr :=
  let gw := a.router.getD (Vector.replicate 4 0)
  if gw[0] ≠ 0 then gw else cfg.gwIp

/-- An exchange fails and leaves the addresses, or an OFFER and an ACK were taken. -/
theorem dhcpRequest_cases (xid : UInt32) (cfg : Config) (offers acks : List Frame) :
    dhcpRequest true xid cfg offers acks = (0, cfg) ∨
      ∃ o ∈ lookedAt (offerReading xid) offers, o.IsMessage xid 2 ∧
        ∃ a ∈ lookedAtAcks xid offers acks, a.IsMessage xid 5 ∧
          dhcpRequest true xid cfg offers acks = (1, ⟨o.yiaddr, gatewayAfter cfg a⟩) := by
  rw [dhcpRequest, if_pos rfl, lookedAtAcks]
  cases hoffer : offers.findSome? (·.read (offerReading xid)) with
  | none => exact Or.inl rfl
  | some v =>
      cases hack : acks.findSome? (·.read (ackReading xid)) with
      | none => exact Or.inl rfl
      | some w =>
          obtain ⟨o, ho, hov⟩ := exists_looked hoffer
          obtain ⟨a, ha, haw⟩ := exists_looked hack
          refine Or.inr ⟨o, ho, (read_offer o xid).1.mp (by rw [hov]; rfl), a, ?_,
            (read_ack a xid).1.mp (by rw [haw]; rfl), ?_⟩
          · rw [if_pos (show (some v).isSome = true from rfl)]
            exact ha
          · rw [gatewayAfter, ← (read_offer o xid).2 v hov, ← (read_ack a xid).2 w haw]

/-- The OFFER and the ACK looked at are the ones taken. -/
theorem dhcpRequest_taken (cfg : Config) (ho : o ∈ lookedAt (offerReading xid) offers)
    (hoffer : o.IsMessage xid 2)
    (ha : a ∈ lookedAtAcks xid offers acks) (hack : a.IsMessage xid 5) :
    dhcpRequest true xid cfg offers acks = (1, ⟨o.yiaddr, gatewayAfter cfg a⟩) := by
  have hos := (read_offer o xid).1.mpr hoffer
  have has := (read_ack a xid).1.mpr hack
  have hofind := findSome_of_looked ho hos
  rw [lookedAtAcks, hofind, if_pos hos] at ha
  have hafind := findSome_of_looked ha has
  obtain ⟨v, hv⟩ := Option.isSome_iff_exists.mp hos
  obtain ⟨w, hw⟩ := Option.isSome_iff_exists.mp has
  rw [hv] at hofind
  rw [hw] at hafind
  rw [dhcpRequest, if_pos rfl, hofind, hafind, gatewayAfter, ← (read_offer o xid).2 v hv,
    ← (read_ack a xid).2 w hw]

/-- While an ACK is waited for, there was an OFFER. -/
theorem exists_offer (ha : a ∈ lookedAtAcks xid offers acks) :
    ∃ o ∈ lookedAt (offerReading xid) offers, o.IsMessage xid 2 := by
  rw [lookedAtAcks] at ha
  split at ha
  · obtain ⟨v, hv⟩ := Option.isSome_iff_exists.mp ‹_›
    obtain ⟨o, ho, hov⟩ := exists_looked hv
    exact ⟨o, ho, (read_offer o xid).1.mp (by rw [hov]; rfl)⟩
  · cases ha

/-- Two ACKs looked at are the same frame. -/
theorem ack_unique (hf : f ∈ lookedAtAcks xid offers acks) (ha : a ∈ lookedAtAcks xid offers acks)
    (hfm : f.IsMessage xid 5) (ham : a.IsMessage xid 5) : f = a := by
  rw [lookedAtAcks] at hf ha
  split at hf
  · rw [if_pos ‹_›] at ha
    exact looked_unique hf ha ((read_ack f xid).1.mpr hfm) ((read_ack a xid).1.mpr ham)
  · cases hf

/-- The gateway is the router of the ACK, if that has one, just when the router does not
start with 0 or is the gateway already. -/
theorem gatewayAfter_iff :
    (∀ gw, a.router = some gw → gatewayAfter cfg a = gw) ↔
      ∀ gw, a.router = some gw → gw[0] ≠ 0 ∨ gw = cfg.gwIp := by
  apply forall₂_congr
  intro gw hgw
  rw [gatewayAfter, hgw, Option.getD_some]
  by_cases hfirst : gw[0] = 0
  · simp only [ne_eq, hfirst, not_true_eq_false, if_false, false_or]
    exact eq_comm
  · simp [hfirst]

end Exchange

/-- The exchange reads inside the frames, installs what the ACK says, or nothing when it
fails, exactly if the NIC is missing or the frames make it sound. -/
theorem exchanged_iff (present : Bool) (xid : UInt32) (cfg : Config) (offers acks : List Frame) :
    Exchanged present xid cfg offers acks ↔ (present → Sound xid cfg offers acks) := by
  constructor
  · rintro h rfl
    have hacks := h.acks_inside rfl
    refine ⟨?_, ?_, ?_, ?_⟩
    · exact fun f hf => (stays_offerReading f xid).mp (h.offers_inside rfl f hf).stays
    · exact fun f hf => (stays_ackReading f xid).mp (hacks f hf).stays
    · intro o ho hoffer a ha hack
      have hrun := dhcpRequest_taken cfg ho hoffer ha hack
      obtain ⟨f, hf, hfack, hip, -⟩ := h.installed (by rw [hrun])
      rw [← ack_unique hf ha hfack hack, ← hip, hrun]
    · intro a ha hack
      obtain ⟨o, ho, hoffer⟩ := exists_offer ha
      have hrun := dhcpRequest_taken cfg ho hoffer ha hack
      obtain ⟨f, hf, hfack, -, hgw⟩ := h.installed (by rw [hrun])
      rw [hrun, ack_unique hf ha hfack hack] at hgw
      dsimp only at hgw
      exact gatewayAfter_iff.mp hgw
  · intro h
    cases present with
    | false => exact ⟨nofun, nofun, nofun, fun _ => rfl⟩
    | true =>
        have h := h rfl
        refine ⟨fun _ f hf => ⟨?_, ?_⟩, fun _ f hf => ⟨?_, ?_⟩, ?_, ?_⟩
        · exact (stays_offerReading f xid).mpr (h.offers_fit f hf)
        · obtain ⟨v, hv, -⟩ := value_offerReading f xid
          exact ⟨v, hv, trivial⟩
        · exact (stays_ackReading f xid).mpr (h.acks_fit f hf)
        · obtain ⟨v, hv, -⟩ := value_ackReading f xid
          exact ⟨v, hv, trivial⟩
        · intro hone
          rcases dhcpRequest_cases xid cfg offers acks with
            hrun | ⟨o, ho, hoffer, a, ha, hack, hrun⟩
          · rw [hrun] at hone
            cases hone
          · refine ⟨a, ha, hack, ?_, ?_⟩
            · rw [hrun, h.same o ho hoffer a ha hack]
            · rw [hrun]
              dsimp only
              exact gatewayAfter_iff.mpr (h.gateway a ha hack)
        · intro hzero
          rcases dhcpRequest_cases xid cfg offers acks with hrun | ⟨_, _, _, _, _, _, hrun⟩
          · rw [hrun]
          · rw [hrun] at hzero
            cases hzero

/-- A reply that is cut behind the length of its message type. -/
def cutReply : Frame where
  mem := fun i => ([(12, 8), (23, 17), (35, 67), (37, 68), (42, 2), (46, 0xD0), (47, 0xC5),
    (278, 99), (279, 130), (280, 83), (281, 99), (285, 53), (286, 1)].lookup i).getD 0
  len := 287

/-- Its message type is read behind it. -/
theorem not_every_exchange : ¬ ∀ present xid cfg offers acks,
    Exchanged present xid cfg offers acks := by
  intro h
  have hexchanged := h true 0xD0C50000 ⟨#v[10, 0, 2, 15], #v[10, 0, 2, 2]⟩ [cutReply] []
  have hinside := hexchanged.offers_inside rfl cutReply List.mem_cons_self
  have hfit := (stays_offerReading cutReply _).mp hinside.stays
  have hoption : cutReply.option 53 = some (287, 1) := by decide
  have hreply : cutReply.IsReply 0xD0C50000 := ⟨by decide, by decide, by decide⟩
  exact absurd ((hfit.kind hreply).2 _ hoption) (by decide)

end OriaOS.Dhcp
