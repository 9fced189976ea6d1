import OriaOS.Tls.Authentication

/-!
# Handshake messages in a record

Messages as they stand in the stream, and what the scan of a record makes of a record
that holds whole messages: it visits each of them, and it stops in front of a rest that
is too short for a header. A message of which only the beginning is there is the last one
it visits.
-/

namespace OriaOS.Tls

/-! ## Messages -/

/-- A handshake message: its type and content. -/
structure HsMsg where
  type : UInt8
  body : Bytes
  length_lt : body.length < 16777216

/-- The message as it stands in the stream. -/
def HsMsg.bytes (m : HsMsg) : Bytes :=
  [m.type, UInt8.ofNat (m.body.length / 65536), UInt8.ofNat (m.body.length / 256),
    UInt8.ofNat m.body.length] ++ m.body

/-- The bytes of consecutive messages. -/
def streamOf (msgs : List HsMsg) : Bytes := msgs.flatMap HsMsg.bytes

theorem streamOf_append (msgs msgs' : List HsMsg) :
    streamOf (msgs ++ msgs') = streamOf msgs ++ streamOf msgs' :=
  List.flatMap_append

/-! ## The scan of a record -/

theorem HsMsg.length_bytes (m : HsMsg) : m.bytes.length = m.body.length + 4 := by
  simp [HsMsg.bytes]

/-- The memory has the bytes from an address on. -/
def Holds (d : Mem) (hp : Nat) (xs : Bytes) : Prop :=
  ∀ i, (h : i < xs.length) → d (hp + i) = xs[i]

theorem holds_overlay (xs : Bytes) (mem : Mem) : Holds (overlay xs mem) 0 xs := by
  intro i h
  simp [overlay, h]

theorem slice_holds {d : Mem} {xs : Bytes} (h : Holds d 0 xs) : slice d 0 xs.length = xs := by
  apply List.ext_getElem
  · simp [slice]
  · intro i hi hi'
    simpa [slice] using h i hi'

section Scan
variable {d : Mem} {hp : Nat}

theorem Holds.left {xs ys : Bytes} (h : Holds d hp (xs ++ ys)) : Holds d hp xs := by
  intro i hi
  rw [h i (by rw [List.length_append]; omega), List.getElem_append_left hi]

theorem Holds.right {xs ys : Bytes} (h : Holds d hp (xs ++ ys)) : Holds d (hp + xs.length) ys := by
  intro i hi
  have hlt : xs.length + i < (xs ++ ys).length := by
    rw [List.length_append]
    omega
  rw [Nat.add_assoc, h (xs.length + i) hlt, List.getElem_append_right (by omega)]
  simp

/-- A memory that has the bytes is one they were copied to. -/
theorem Holds.overlay {xs : Bytes} (h : Holds d hp xs) :
    (fun i => d (hp + i)) = overlay xs fun i => d (hp + i) := by
  funext i
  by_cases hi : i < xs.length
  · simp [OriaOS.Tls.overlay, hi, h i hi]
  · simp [OriaOS.Tls.overlay, hi]

/-- The header of a message is read back, also when not all of the message is there. -/
theorem Holds.front {m : HsMsg} {k : Nat} (hk : 4 ≤ k) (h : Holds d hp (m.bytes.take k)) :
    d hp = m.type ∧ rd24 d (hp + 1) = m.body.length := by
  have hlen := m.length_bytes
  have hlt := m.length_lt
  have hfour : ∀ i, i < 4 → m.bytes[i]? = some (d (hp + i)) := by
    intro i hi
    have hat := h i (by rw [List.length_take]; omega)
    rw [hat, List.getElem_take, List.getElem?_eq_getElem]
  have h0 : m.type = d hp := Option.some.inj (hfour 0 (by omega))
  have h1 : UInt8.ofNat (m.body.length / 65536) = d (hp + 1) :=
    Option.some.inj (hfour 1 (by omega))
  have h2 : UInt8.ofNat (m.body.length / 256) = d (hp + 2) :=
    Option.some.inj (hfour 2 (by omega))
  have h3 : UInt8.ofNat m.body.length = d (hp + 3) := Option.some.inj (hfour 3 (by omega))
  refine ⟨h0.symm, ?_⟩
  rw [rd24, ← h1, show hp + 1 + 1 = hp + 2 from rfl, ← h2, show hp + 1 + 2 = hp + 3 from rfl,
    ← h3]
  simp only [UInt8.toNat_ofNat']
  omega

theorem Holds.header {m : HsMsg} (h : Holds d hp m.bytes) :
    d hp = m.type ∧ rd24 d (hp + 1) = m.body.length := by
  apply Holds.front (k := m.bytes.length)
  · rw [m.length_bytes]
    omega
  · rwa [List.take_length]

/-- The addresses of consecutive messages. -/
def starts : Nat → List HsMsg → List Nat
  | _, [] => []
  | hp, m :: msgs => hp :: starts (hp + m.bytes.length) msgs

theorem starts_append (msgs msgs' : List HsMsg) :
    starts hp (msgs ++ msgs') = starts hp msgs ++ starts (hp + (streamOf msgs).length) msgs' := by
  induction msgs generalizing hp with
  | nil => rfl
  | cons m msgs ih =>
      rw [List.cons_append, starts, starts, ih, List.cons_append, streamOf, streamOf,
        List.flatMap_cons, List.length_append, Nat.add_assoc]

/-- The scan visits the messages of a record, and goes on behind them. -/
theorem hsOffsets_messages {msgs : List HsMsg} {tail : Bytes} {dlen fuel : Nat}
    (h : Holds d hp (streamOf msgs ++ tail)) (hdlen : hp + (streamOf msgs).length ≤ dlen)
    (hfuel : dlen < hp + 4 * fuel + 4) :
    ∃ left, dlen < hp + (streamOf msgs).length + 4 * left + 4 ∧
      hsOffsets d dlen fuel hp =
        starts hp msgs ++ hsOffsets d dlen left (hp + (streamOf msgs).length) := by
  induction msgs generalizing hp fuel with
  | nil => exact ⟨fuel, hfuel, rfl⟩
  | cons m msgs ih =>
      rw [streamOf, List.flatMap_cons, List.append_assoc] at h
      obtain ⟨-, hlen⟩ := h.left.header
      have hbytes := m.length_bytes
      rw [streamOf, List.flatMap_cons, List.length_append, ← Nat.add_assoc] at hdlen
      cases fuel with
      | zero => omega
      | succ fuel =>
          have hroom : dlen < hp + m.bytes.length + 4 * fuel + 4 := by omega
          obtain ⟨left, hleft, hrest⟩ := ih h.right hdlen hroom
          refine ⟨left, ?_, ?_⟩
          · rw [streamOf, List.flatMap_cons, List.length_append, ← Nat.add_assoc]
            exact hleft
          · rw [hsOffsets, if_pos (by omega), hlen, starts,
              show hp + 4 + m.body.length = hp + m.bytes.length by omega, hrest, List.cons_append]
            rw [streamOf, streamOf, List.flatMap_cons, List.length_append, Nat.add_assoc]

/-- It stops in front of a rest that is too short for a header. -/
theorem hsOffsets_stream {msgs : List HsMsg} {tail : Bytes} {dlen fuel : Nat}
    (h : Holds d hp (streamOf msgs ++ tail)) (htail : tail.length < 4)
    (hdlen : dlen = hp + (streamOf msgs).length + tail.length) (hfuel : dlen < hp + 4 * fuel + 4) :
    hsOffsets d dlen fuel hp = starts hp msgs := by
  obtain ⟨left, -, heq⟩ := hsOffsets_messages h (by omega) hfuel
  have hstop : hsOffsets d dlen left (hp + (streamOf msgs).length) = [] := by
    cases left with
    | zero => rfl
    | succ left => rw [hsOffsets, if_neg (by omega)]
  rw [heq, hstop, List.append_nil]

/-- A message that goes on behind the record is the last one. -/
theorem hsOffsets_cut {msgs : List HsMsg} {m : HsMsg} {k dlen fuel : Nat}
    (h : Holds d hp (streamOf msgs ++ m.bytes.take k)) (hk : 4 ≤ k) (hlt : k < m.bytes.length)
    (hdlen : dlen = hp + (streamOf msgs).length + k) (hfuel : dlen < hp + 4 * fuel + 4) :
    hsOffsets d dlen fuel hp = starts hp (msgs ++ [m]) := by
  obtain ⟨left, hleft, heq⟩ := hsOffsets_messages h (by omega) hfuel
  have hlen := (h.right.front hk).2
  have hbytes := m.length_bytes
  have hstop : ∀ n, hsOffsets d dlen n
      (hp + (streamOf msgs).length + 4 + rd24 d (hp + (streamOf msgs).length + 1)) = [] := by
    intro n
    cases n with
    | zero => rfl
    | succ n => rw [hsOffsets, if_neg (by omega)]
  cases left with
  | zero => omega
  | succ left =>
      rw [heq, hsOffsets, if_pos (by omega), hstop, starts_append]
      rfl

/-- A Finished is found exactly among the messages. -/
theorem finished_starts {msgs : List HsMsg} (h : Holds d hp (streamOf msgs)) :
    (∃ p ∈ starts hp msgs, d p = 20) ↔ ∃ m ∈ msgs, m.type = 20 := by
  induction msgs generalizing hp with
  | nil => simp [starts]
  | cons m msgs ih =>
      rw [streamOf, List.flatMap_cons] at h
      simp only [starts, List.exists_mem_cons_iff, h.left.header.1, ih h.right]

section Cert
variable {X : Type} {K : Crypto X}

/-- What the certificate part of the scan makes of a message. -/
def certOf (K : Crypto X) (m : HsMsg) : Option (Option X) :=
  certAt K (overlay m.bytes fun _ => 0) 0

/-- The stored certificate behind the messages. -/
def certBehind (K : Crypto X) (cert : Option X) (msgs : List HsMsg) : Option X :=
  msgs.foldl (fun cert m => (certOf K m).getD cert) cert

theorem certBehind_append (cert : Option X) (msgs msgs' : List HsMsg) :
    certBehind K cert (msgs ++ msgs') = certBehind K (certBehind K cert msgs) msgs' :=
  List.foldl_append

theorem rd24_shift (d : Mem) (hp p : Nat) : rd24 (fun i => d (hp + i)) p = rd24 d (hp + p) := rfl

/-- The addresses of the certificate part are relative to the message. -/
theorem certAt_shift (d : Mem) (hp : Nat) : certAt K d hp = certAt K (fun i => d (hp + i)) 0 := by
  have hstart : (if hp + 4 < hp + (4 + rd24 d (hp + 1)) then hp + 5 else hp + 4) =
      hp + if 4 < 4 + rd24 d (hp + 1) then 5 else 4 := by
    split <;> split <;> omega
  simp only [certAt, rd24_shift, hstart, Nat.zero_add, Nat.add_zero, Nat.add_assoc,
    Nat.add_le_add_iff_left]

/-- The parser does not look behind the certificate message. -/
def Contained (K : Crypto X) (m : HsMsg) : Prop :=
  ∀ mem, certAt K (overlay m.bytes mem) 0 = certAt K (overlay m.bytes fun _ => 0) 0

/-- The certificate part reads the message, wherever it stands. -/
theorem certAt_message {m : HsMsg} (h : Holds d hp m.bytes) (hm : Contained K m) :
    certAt K d hp = certOf K m := by
  rw [certAt_shift, h.overlay]
  exact hm _

theorem certAt_of_type {d : Mem} {hp : Nat} (h : d hp ≠ 11) : certAt K d hp = none := by
  simp only [certAt, h, false_and, if_false]

/-- A message of another type holds no certificate. -/
theorem certOf_of_type {m : HsMsg} (h : m.type ≠ 11) : certOf K m = none := by
  apply certAt_of_type
  rw [(holds_overlay m.bytes _).header.1]
  exact h

theorem contained_of_type {m : HsMsg} (h : m.type ≠ 11) : Contained K m := by
  intro mem
  refine Eq.trans ?_ (certOf_of_type h).symm
  apply certAt_of_type
  rw [(holds_overlay m.bytes mem).header.1]
  exact h

/-- A message that may go on in the next record behind its first bytes: it is no Finished,
and of a Certificate the first bytes hold what the parser reads. -/
structure Cuttable (K : Crypto X) (m : HsMsg) (k : Nat) : Prop where
  lt : k < m.bytes.length
  notFinished : m.type ≠ 20
  cert : m.type = 11 →
    4 ≤ k ∧ ∀ mem, certAt K (overlay (m.bytes.take k) mem) 0 = certOf K m

/-- The certificate part makes of the first bytes what it makes of the message. -/
theorem Cuttable.certAt {m : HsMsg} {k : Nat} (hcut : Cuttable K m k) (hk : 4 ≤ k)
    (h : Holds d hp (m.bytes.take k)) : certAt K d hp = certOf K m := by
  by_cases htype : m.type = 11
  · rw [certAt_shift, h.overlay]
    exact (hcut.cert htype).2 _
  · rw [certOf_of_type htype]
    apply certAt_of_type
    rw [(h.front hk).1]
    exact htype

/-- The parser reads its argument and not what lies behind it. -/
def ReadsInside (K : Crypto X) : Prop :=
  ∀ (mem mem' : Mem) (n : Nat), (∀ i, i < n → mem i = mem' i) →
    K.x509Parse mem n = K.x509Parse mem' n

/-- The certificate part reads the message only. -/
theorem certAt_congr (hK : ReadsInside K) {d d' : Mem}
    (h : ∀ i, i < 4 + rd24 d 1 → d i = d' i) : certAt K d 0 = certAt K d' 0 := by
  have hlen : rd24 d' 1 = rd24 d 1 := by
    rw [rd24, rd24, h 1 (by omega), h (1 + 1) (by omega), h (1 + 2) (by omega)]
  simp only [certAt, Nat.zero_add, hlen, ← h 0 (by omega)]
  by_cases htype : d 0 = 11 ∧ 4 < rd24 d 1
  · rw [if_pos htype, if_pos htype, if_pos (show 4 < 4 + rd24 d 1 by omega)]
    by_cases hlist : 5 + 3 ≤ 4 + rd24 d 1
    · rw [if_pos hlist, if_pos hlist]
      by_cases hentry : 5 + 3 + 3 ≤ 4 + rd24 d 1
      · have hder : rd24 d' (5 + 3) = rd24 d (5 + 3) := by
          rw [rd24, rd24, h _ (by omega), h _ (by omega), h _ (by omega)]
        rw [if_pos hentry, if_pos hentry, hder]
        by_cases hfit : 5 + 3 + 3 + rd24 d (5 + 3) ≤ 4 + rd24 d 1
        · rw [if_pos hfit, if_pos hfit]
          exact congrArg some (hK _ _ _ fun i hi => h _ (by omega))
        · rw [if_neg hfit, if_neg hfit]
      · rw [if_neg hentry, if_neg hentry]
    · rw [if_neg hlist, if_neg hlist]
  · rw [if_neg htype, if_neg htype]

/-- With such a parser every message is contained. -/
theorem contained_of_readsInside (hK : ReadsInside K) (m : HsMsg) : Contained K m := by
  intro mem
  have hholds := holds_overlay m.bytes mem
  have hlen := hholds.header.2
  rw [Nat.zero_add] at hlen
  apply certAt_congr hK
  intro i hi
  have hi' : i < m.bytes.length := by
    rw [m.length_bytes]
    omega
  simp [overlay, hi']

theorem certs_starts {msgs : List HsMsg} (h : Holds d hp (streamOf msgs))
    (hm : ∀ m ∈ msgs, Contained K m) (cert : Option X) :
    (starts hp msgs).foldl (fun cert p => (certAt K d p).getD cert) cert =
      certBehind K cert msgs := by
  induction msgs generalizing hp cert with
  | nil => rfl
  | cons m msgs ih =>
      rw [streamOf, List.flatMap_cons] at h
      rw [starts, List.foldl_cons, certAt_message h.left (hm m List.mem_cons_self),
        ih h.right fun m' hm' => hm m' (List.mem_cons_of_mem m hm')]
      rfl

/-- The scan of a record that holds whole messages, and behind them less than a
header. -/
theorem scanRecord_stream {st : FlightState X} {mem : Mem} {msgs : List HsMsg} {tail : Bytes}
    (h : Holds mem 0 (streamOf msgs ++ tail)) (htail : tail.length < 4)
    (hm : ∀ m ∈ msgs, Contained K m) :
    scanRecord K st ⟨mem, (streamOf msgs ++ tail).length⟩ =
      { st with
        gotFin := st.gotFin || decide (∃ m ∈ msgs, m.type = 20)
        lastCert := certBehind K st.lastCert msgs } := by
  have hoffsets : HsRecord.offsets ⟨mem, (streamOf msgs ++ tail).length⟩ = starts 0 msgs := by
    apply hsOffsets_stream h htail
    · rw [List.length_append, Nat.zero_add]
    · simp only
      omega
  rw [scanRecord_spec, certAfterRecord, hoffsets, certs_starts h.left hm]
  simp only [HsRecord.hasFinished, hoffsets, finished_starts h.left]

/-- The scan of a record that holds whole messages only. -/
theorem scanRecord_whole {st : FlightState X} {mem : Mem} {msgs : List HsMsg}
    (h : Holds mem 0 (streamOf msgs)) (hm : ∀ m ∈ msgs, Contained K m) :
    scanRecord K st ⟨mem, (streamOf msgs).length⟩ =
      { st with
        gotFin := st.gotFin || decide (∃ m ∈ msgs, m.type = 20)
        lastCert := certBehind K st.lastCert msgs } := by
  rw [← List.append_nil (streamOf msgs)] at h ⊢
  exact scanRecord_stream h (Nat.succ_pos 3) hm

/-- The scan of a record that is too short for a header. -/
theorem scanRecord_short {st : FlightState X} {mem : Mem} {c : Bytes} (h : Holds mem 0 c)
    (hc : c.length < 4) :
    scanRecord K st ⟨mem, c.length⟩ = { st with gotFin := st.gotFin || false } := by
  have hnone : ∀ m ∈ ([] : List HsMsg), Contained K m := fun m hm => (List.not_mem_nil hm).elim
  have hscan : scanRecord K st ⟨mem, c.length⟩ = _ := scanRecord_stream h hc hnone
  rw [hscan]
  simp [certBehind]

/-- The scan of a record that holds whole messages and the beginning of another. -/
theorem scanRecord_cut {st : FlightState X} {mem : Mem} {msgs : List HsMsg} {m : HsMsg} {k : Nat}
    (h : Holds mem 0 (streamOf msgs ++ m.bytes.take k)) (hcut : Cuttable K m k)
    (hm : ∀ m ∈ msgs, Contained K m) :
    scanRecord K st ⟨mem, (streamOf msgs ++ m.bytes.take k).length⟩ =
      { st with
        gotFin := st.gotFin || decide (∃ m ∈ msgs, m.type = 20)
        lastCert := certBehind K st.lastCert (msgs ++ [m]) } := by
  have hlt := hcut.lt
  have hlen : (m.bytes.take k).length = k := by
    rw [List.length_take]
    omega
  have hcert : certBehind K st.lastCert (msgs ++ [m]) =
      (certOf K m).getD (certBehind K st.lastCert msgs) := by
    rw [certBehind_append]
    rfl
  by_cases hk : k < 4
  · have htype : m.type ≠ 11 := fun htype => Nat.not_le.mpr hk (hcut.cert htype).1
    rw [scanRecord_stream h (by omega) hm, hcert, certOf_of_type htype]
    rfl
  · have hfour := Nat.not_lt.mp hk
    have hoffsets : HsRecord.offsets ⟨mem, (streamOf msgs ++ m.bytes.take k).length⟩ =
        starts 0 msgs ++ [0 + (streamOf msgs).length] := by
      refine (hsOffsets_cut h hfour hlt ?_ (by simp only; omega)).trans (starts_append msgs [m])
      rw [List.length_append, hlen, Nat.zero_add]
    have htype := (h.right.front hfour).1
    rw [scanRecord_spec, certAfterRecord, hoffsets, List.foldl_append, certs_starts h.left hm,
      hcert, List.foldl_cons, List.foldl_nil, hcut.certAt hfour h.right]
    simp only [HsRecord.hasFinished, hoffsets, List.mem_append, List.mem_singleton, or_and_right,
      exists_or, exists_eq_left, htype, hcut.notFinished, or_false, finished_starts h.left]

end Cert

end Scan

end OriaOS.Tls
