import OriaOS.Lib.Reading

/-!
# Parsing a DNS response

`dns_parse_response` over a packet in memory. For every packet and every length it ends,
reads inside the packet, and writes the address only when it returns 1. Positions are
naturals: the loops move a position at most 255 bytes past the end of the packet, and a
record at most 65535, so that the `int` of the source takes the same values for lengths up
to 2147418112. `dns_resolve` passes less than 65536.
-/

namespace OriaOS.Dns

open OriaOS.Lib OriaOS.Lib.Reading

/-- `dns_parse_response`, the loop over QNAME. -/
def skipQname (len : Nat) : Nat → Nat → Reading Nat Nat
  | 0, _ => stuck
  | fuel + 1, pos =>
      if pos < len then do
        let llen ← byte pos
        if llen = 0 then pure (pos + 1)
        else if llen &&& 0xC0 = 0xC0 then pure (pos + 1 + 1)
        else skipQname len fuel (pos + 1 + llen.toNat)
      else pure pos

/-- `dns_parse_response`, the loop over the NAME of an answer. Unlike the loop over QNAME
it takes a pointer behind labels for one more label. -/
def skipLabels (len : Nat) : Nat → Nat → Reading Nat Nat
  | 0, _ => stuck
  | fuel + 1, pos =>
      if pos < len then do
        let llen ← byte pos
        if llen = 0 then pure (pos + 1)
        else skipLabels len fuel (pos + 1 + llen.toNat)
      else pure pos

/-- `dns_parse_response`, the NAME of an answer. -/
def skipName (len fuel pos : Nat) : Reading Nat Nat :=
  if pos < len then do
    let first ← byte pos
    if first &&& 0xC0 = 0xC0 then pure (pos + 2) else skipLabels len fuel pos
  else skipLabels len fuel pos

/-- What `dns_parse_response` returns, with the memory at `out_ip` afterwards. -/
abbrev Outcome := Int × (Nat → UInt8)

/-- `dns_parse_response`, the loop over the answers, with the number still to come. -/
def findAddress (len fuel : Nat) (outIp : Nat → UInt8) : Nat → Nat → Reading Nat Outcome
  | 0, _ => pure (0, outIp)
  | left + 1, pos =>
      if pos < len then do
        let pos ← skipName len fuel pos
        if len < pos + 10 then pure (0, outIp)
        else do
          let rtype ← be16 pos
          let rdlen ← be16 (pos + 8)
          let pos := pos + 10
          if rtype = 1 ∧ rdlen = 4 ∧ pos + 4 ≤ len then do
            let a ← byte pos
            let b ← byte (pos + 1)
            let c ← byte (pos + 2)
            let d ← byte (pos + 3)
            let out := Function.update (Function.update outIp 0 a) 1 b
            pure (1, Function.update (Function.update out 2 c) 3 d)
          else findAddress len fuel outIp left (pos + rdlen)
      else pure (0, outIp)

/-- `dns_parse_response`. -/
def dnsParseResponse (fuel : Nat) (len : Int) (txid : UInt16) (outIp : Nat → UInt8) :
    Reading Nat Outcome :=
  if len < 12 then pure (0, outIp)
  else do
    let rid ← be16 0
    if rid ≠ txid.toNat then pure (0, outIp)
    else do
      let flags ← byte 2
      if flags &&& 0x80 = 0 then pure (0, outIp)
      else do
        let ancount ← be16 6
        if ancount = 0 then pure (0, outIp)
        else do
          let pos ← skipQname len.toNat fuel 12
          findAddress len.toNat fuel outIp ancount (pos + 4)

section Robust
variable {buf : Nat → UInt8} {len fuel pos : Nat} {outIp : Nat → UInt8}

/-- The loop over QNAME reads inside the packet, and each round moves on. -/
theorem skipQname_ends (hfuel : len - pos < fuel) :
    Ends (· < len) buf (skipQname len fuel pos) fun p => pos ≤ p ∧ p ≤ max pos (len + 255) := by
  induction fuel generalizing pos with
  | zero => omega
  | succ fuel ih =>
      have hbyte := (buf pos).toNat_lt
      apply Ends.ite
      · intro hpos
        refine Ends.byte_bind hpos ?_
        apply Ends.ite
        · exact fun _ => Ends.pure (by omega)
        intro _
        apply Ends.ite
        · exact fun _ => Ends.pure (by omega)
        intro _
        apply (ih (by omega)).mono
        omega
      · exact fun _ => Ends.pure (by omega)

/-- The loop over the labels of an answer's NAME. -/
theorem skipLabels_ends (hfuel : len - pos < fuel) :
    Ends (· < len) buf (skipLabels len fuel pos) fun p => pos ≤ p ∧ p ≤ max pos (len + 255) := by
  induction fuel generalizing pos with
  | zero => omega
  | succ fuel ih =>
      have hbyte := (buf pos).toNat_lt
      apply Ends.ite
      · intro hpos
        refine Ends.byte_bind hpos ?_
        apply Ends.ite
        · exact fun _ => Ends.pure (by omega)
        intro _
        apply (ih (by omega)).mono
        omega
      · exact fun _ => Ends.pure (by omega)

theorem skipName_ends (hfuel : len - pos < fuel) :
    Ends (· < len) buf (skipName len fuel pos) fun p => pos ≤ p ∧ p ≤ max pos (len + 255) := by
  apply Ends.ite
  · intro hpos
    refine Ends.byte_bind hpos ?_
    apply Ends.ite
    · exact fun _ => Ends.pure (by omega)
    · exact fun _ => skipLabels_ends hfuel
  · exact fun _ => skipLabels_ends hfuel

/-- What a call leaves: the bytes behind the address are as before, and all of them are
unless the call returned 1. -/
def Writes (outIp : Nat → UInt8) (r : Outcome) : Prop :=
  (∀ i, 4 ≤ i → r.2 i = outIp i) ∧ (r.1 ≠ 1 → r.2 = outIp)

theorem writes_none : Writes outIp (0, outIp) := ⟨fun _ _ => rfl, fun _ => rfl⟩

theorem writes_address (a b c d : UInt8) :
    Writes outIp (1, Function.update (Function.update (Function.update (Function.update
      outIp 0 a) 1 b) 2 c) 3 d) := by
  refine ⟨?_, fun h => absurd rfl h⟩
  intro i hi
  dsimp only
  rw [Function.update_of_ne (by omega), Function.update_of_ne (by omega),
    Function.update_of_ne (by omega), Function.update_of_ne (by omega)]

/-- The loop over the answers. -/
theorem findAddress_ends {left : Nat} (hfuel : len - pos < fuel ∨ len ≤ pos) :
    Ends (· < len) buf (findAddress len fuel outIp left pos) (Writes outIp) := by
  induction left generalizing pos with
  | zero => exact Ends.pure writes_none
  | succ left ih =>
      apply Ends.ite
      · intro hpos
        refine (skipName_ends (by omega)).bind ?_
        intro p hp
        apply Ends.ite
        · exact fun _ => Ends.pure writes_none
        intro hfits
        refine Ends.be16_bind (by omega) (by omega) ?_
        refine Ends.be16_bind (by omega) (by omega) ?_
        apply Ends.ite
        · rintro ⟨-, -, hin⟩
          refine Ends.byte_bind (by omega) ?_
          refine Ends.byte_bind (by omega) ?_
          refine Ends.byte_bind (by omega) ?_
          refine Ends.byte_bind (by omega) ?_
          exact Ends.pure (writes_address _ _ _ _)
        · exact fun _ => ih (by omega)
      · exact fun _ => Ends.pure writes_none

end Robust

/-- For every packet and every length the parser ends, reads inside the packet only, and
writes nothing but the four bytes of the address, and these only when it returns 1. -/
theorem dnsParseResponse_robust (buf : Nat → UInt8) (len : Int) (txid : UInt16)
    (outIp : Nat → UInt8) (fuel : Nat) (hfuel : len ≤ fuel) :
    Ends (fun i : Nat => (i : Int) < len) buf (dnsParseResponse fuel len txid outIp)
      (Writes outIp) := by
  apply Ends.ite
  · exact fun _ => Ends.pure writes_none
  intro hlen
  refine Ends.be16_bind (by omega) (by omega) ?_
  apply Ends.ite
  · exact fun _ => Ends.pure writes_none
  intro _
  refine Ends.byte_bind (by omega) ?_
  apply Ends.ite
  · exact fun _ => Ends.pure writes_none
  intro _
  refine Ends.be16_bind (by omega) (by omega) ?_
  apply Ends.ite
  · exact fun _ => Ends.pure writes_none
  intro _
  have hin : ∀ i, i < len.toNat → (i : Int) < len := by
    intro i hi
    omega
  refine ((skipQname_ends (by omega)).weaken hin).bind ?_
  intro p hp
  exact (findAddress_ends (by omega)).weaken hin

/-- A response cut off inside its question. -/
theorem dnsParseResponse_robust_cut :
    Ends (fun i : Nat => (i : Int) < 14)
      (fun i : Nat => [0, 7, 0x80, 0, 0, 1, 0, 1, 0, 0, 0, 0, 63, 97].getD i 0)
      (dnsParseResponse 14 14 7 fun _ => 9) (Writes fun _ => 9) :=
  dnsParseResponse_robust _ 14 7 _ 14 (by decide)

end OriaOS.Dns
