import OriaOS.Tls.Record

/-!
# Application data of an established connection

`tls13_recv` over records an attacker may choose freely. The peer seals its
records one by one, each under the nonce of its number, and an ideal AEAD opens
under a nonce only the record sealed under it. `decrypt_record` advances its
counter on failures too, so record number `n` is only ever tried against the
`n`-th protected record that arrives. The stream has no hole in the runs where
a record that opens comes after no record that failed in the place of
application data.
-/

namespace OriaOS.Tls

open OriaOS.Lib

/-- `tls13_recv`, the loop over at most ten records: the connection, the bytes
returned and what is left to read. -/
def recvLoop (A : Aead) (maxlen : Nat) : Nat → TlsConn → Wire → TlsConn × Bytes × Wire
  | 0, c, w => (c, [], w)
  | _ + 1, c, [] => (c, [], [])
  | _ + 1, c, none :: w => (c, [], w)
  | pass + 1, c, some r :: w =>
      if r.type = alertType then (c, [], w)
      else if r.type ≠ appDataType then recvLoop A maxlen pass c w
      else
        let d := decryptRecord A c.apSKey c.apSIv c.apSSeq r.data
        let c := { c with apSSeq := d.2 }
        match d.1 with
        | none => recvLoop A maxlen pass c w
        | some (ict, data) =>
            if ict = alertType then (c, [], w)
            else if ict = appDataType then
              ({ c with apBuf := c.apBuf.writeAll (data.drop maxlen) }, data.take maxlen, w)
            else recvLoop A maxlen pass c w

/-- `tls13_recv`: buffered bytes first, then records. -/
def tls13Recv (A : Aead) (c : TlsConn) (w : Wire) (maxlen : Nat) : TlsConn × Bytes × Wire :=
  if c.apBuf.head ≠ c.apBuf.tail then
    let r := c.apBuf.take maxlen
    ({ c with apBuf := r.2 }, r.1, w)
  else recvLoop A maxlen 10 c w

/-- The bytes a sequence of `tls13_recv` calls returns, in order. -/
def recvAll (A : Aead) (c : TlsConn) (w : Wire) : List Nat → Bytes
  | [] => []
  | maxlen :: rest =>
      let r := tls13Recv A c w maxlen
      r.2.1 ++ recvAll A r.1 r.2.2 rest

/-- What the calls leave on the wire. -/
def restAll (A : Aead) (c : TlsConn) (w : Wire) : List Nat → Wire
  | [] => w
  | maxlen :: rest =>
      let r := tls13Recv A c w maxlen
      restAll A r.1 r.2.2 rest

/-- A record the peer sealed: its content type, content and padding, and the
bytes it put on the wire. -/
structure SealedRecord where
  type : UInt8
  data : Bytes
  pad : Nat
  wire : Bytes
  type_ne : type ≠ 0

namespace SealedRecord

/-- The plaintext that is sealed. -/
def inner (r : SealedRecord) : Bytes := r.data ++ r.type :: List.replicate r.pad 0

/-- The application data a record carries. -/
def app (r : SealedRecord) : Bytes := if r.type = appDataType then r.data else []

end SealedRecord

/-- The records the peer sends after the handshake, one for each nonce. -/
structure Peer where
  records : List SealedRecord
  length_le : records.length ≤ 2 ^ 64

namespace Peer

/-- The application data the peer sealed. -/
def appData (p : Peer) : Bytes := p.records.flatMap SealedRecord.app

/-- The application data of one record of the peer. -/
def appAt (p : Peer) (i : Nat) : Bytes := (p.records[i]?).elim [] SealedRecord.app

end Peer

/-- Under a nonce only the record the peer sealed under that nonce opens. -/
def Ideal (A : Aead) (key : Key) (iv : Nonce) (p : Peer) : Prop :=
  ∀ nonce aad ct tag pt, A.openWith key nonce aad ct tag = some pt →
    ∃ i r, p.records[i]? = some r ∧ nonce = makeNonce iv (UInt64.ofNat i) ∧
      ct ++ tag = r.wire ∧ pt = r.inner

/-- The connection has just been established. -/
def Established (c : TlsConn) : Prop :=
  c.used = true ∧ c.state = 1 ∧ c.apSSeq = 0 ∧ c.apBuf.tail = c.apBuf.head

/-- The records on the wire that `decrypt_record` tries to open. -/
def protectedData (w : Wire) : List Bytes :=
  w.filterMap fun x => x.bind fun r =>
    if r.type = appDataType ∧ 16 ≤ r.data.length then some r.data else none

/-- The `i`-th of these records opens under number `i`. -/
def OpensAt (A : Aead) (c : TlsConn) (l : List Bytes) (i : Nat) : Prop :=
  ∃ b, l[i]? = some b ∧ (openRecord A c.apSKey c.apSIv (UInt64.ofNat i) b).isSome

/-- Fewer than `2 ^ 64` protected records arrive, and before one that opens,
none has failed in the place of a record with application data. -/
def NoGap (A : Aead) (c : TlsConn) (p : Peer) (w : Wire) : Prop :=
  (protectedData w).length ≤ 2 ^ 64 ∧
    ∀ i j, i < j → OpensAt A c (protectedData w) j →
      OpensAt A c (protectedData w) i ∨ p.appAt i = []

/-- The application data among the opened records. -/
def accepted (A : Aead) (key : Key) (iv : Nonce) (l : List Bytes) : Bytes :=
  l.zipIdx.flatMap fun x =>
    match (openRecord A key iv (UInt64.ofNat x.2) x.1).bind splitInner with
    | none => []
    | some (t, data) => if t = appDataType then data else []

section Accepted
variable {A : Aead} {key : Key} {iv : Nonce} {p : Peer}

theorem splitInner_inner (r : SealedRecord) : splitInner r.inner = some (r.type, r.data) := by
  have hdrop : ∀ n, (List.replicate n (0 : UInt8) ++ r.type :: r.data.reverse).dropWhile
      (fun b => decide (b = 0)) = r.type :: r.data.reverse := by
    intro n
    induction n with
    | zero => simp [r.type_ne]
    | succ n ih => simpa [List.replicate_succ] using ih
  unfold splitInner SealedRecord.inner
  have hrev : (r.data ++ r.type :: List.replicate r.pad 0).reverse =
      List.replicate r.pad 0 ++ r.type :: r.data.reverse := by
    simp
  rw [hrev, hdrop]
  simp

/-- A record that opens under a number is the peer's record of that number. -/
theorem openRecord_ideal (hi : Ideal A key iv p) {k : Nat} {b pt : Bytes} (hk : k < 2 ^ 64)
    (h : openRecord A key iv (UInt64.ofNat k) b = some pt) :
    ∃ r, p.records[k]? = some r ∧ pt = r.inner := by
  obtain ⟨i, r, hr, hnonce, _, hpt⟩ := hi _ _ _ _ _ h
  have hlt : i < 2 ^ 64 := by
    obtain ⟨hlt, _⟩ := List.getElem?_eq_some_iff.mp hr
    exact Nat.lt_of_lt_of_le hlt p.length_le
  have heq := congrArg UInt64.toNat (makeNonce_injective iv hnonce)
  rw [UInt64.toNat_ofNat_of_lt' hk, UInt64.toNat_ofNat_of_lt' hlt] at heq
  rw [heq]
  exact ⟨r, hr, hpt⟩

theorem accepted_append (A : Aead) (key : Key) (iv : Nonce) (l l' : List Bytes) :
    accepted A key iv l <+: accepted A key iv (l ++ l') := by
  unfold accepted
  rw [List.zipIdx_append, List.flatMap_append]
  exact List.prefix_append _ _

/-- One more record adds the peer's application data of its number if it opens
and nothing otherwise. -/
theorem accepted_concat (hi : Ideal A key iv p) (l : List Bytes) (b : Bytes)
    (hl : l.length < 2 ^ 64) :
    accepted A key iv (l ++ [b]) = accepted A key iv l ++
      if (openRecord A key iv (UInt64.ofNat l.length) b).isSome then p.appAt l.length else [] := by
  unfold accepted
  rw [List.zipIdx_append, List.flatMap_append]
  congr 1
  simp only [List.zipIdx_singleton, List.flatMap_cons, List.flatMap_nil, List.append_nil,
    Nat.zero_add]
  cases hopen : openRecord A key iv (UInt64.ofNat l.length) b with
  | none => rfl
  | some pt =>
      obtain ⟨r, hr, rfl⟩ := openRecord_ideal hi hl hopen
      simp [splitInner_inner, Peer.appAt, hr, SealedRecord.app]

theorem take_succ_appData (p : Peer) (k : Nat) :
    (p.records.take (k + 1)).flatMap SealedRecord.app =
      (p.records.take k).flatMap SealedRecord.app ++ p.appAt k := by
  rw [List.take_add_one, List.flatMap_append]
  congr 1
  unfold Peer.appAt
  cases p.records[k]? with
  | none => rfl
  | some r => simp

/-- If every record before opened, or had no application data to lose, the data
accepted so far is the peer's, in full. -/
theorem accepted_eq_take (hi : Ideal A key iv p) (l : List Bytes) (hl : l.length ≤ 2 ^ 64)
    (hall : ∀ i b, l[i]? = some b →
      (openRecord A key iv (UInt64.ofNat i) b).isSome ∨ p.appAt i = []) :
    accepted A key iv l = (p.records.take l.length).flatMap SealedRecord.app := by
  induction l using List.reverseRecOn with
  | nil => rfl
  | append_singleton l b ih =>
      rw [List.length_append, List.length_singleton] at hl ⊢
      have hprev := ih (by omega) fun i b' hb => hall i b' (by
        obtain ⟨hlt, _⟩ := List.getElem?_eq_some_iff.mp hb
        rw [List.getElem?_append_left hlt]
        exact hb)
      rw [accepted_concat hi l b (by omega), hprev, take_succ_appData]
      congr 1
      rcases hall l.length b (by simp) with hopen | hempty
      · rw [if_pos hopen]
      · rw [hempty, ite_self]

/-- Without a gap the accepted data is a prefix of what the peer sealed. -/
theorem accepted_prefix (hi : Ideal A key iv p) (l : List Bytes) (hl : l.length ≤ 2 ^ 64)
    (hgap : ∀ i j b b', i < j → l[j]? = some b → l[i]? = some b' →
      (openRecord A key iv (UInt64.ofNat j) b).isSome →
      (openRecord A key iv (UInt64.ofNat i) b').isSome ∨ p.appAt i = []) :
    accepted A key iv l <+: p.appData := by
  induction l using List.reverseRecOn with
  | nil => exact List.nil_prefix
  | append_singleton l b ih =>
      rw [List.length_append, List.length_singleton] at hl
      have hleft : ∀ {i : Nat} {b' : Bytes}, l[i]? = some b' → (l ++ [b])[i]? = some b' := by
        intro i b' hb
        obtain ⟨hlt, _⟩ := List.getElem?_eq_some_iff.mp hb
        rw [List.getElem?_append_left hlt]
        exact hb
      rw [accepted_concat hi l b (by omega)]
      by_cases hopen : (openRecord A key iv (UInt64.ofNat l.length) b).isSome
      · -- The new record opens, so nothing before it was lost.
        have hfull := accepted_eq_take hi l (by omega) fun i b' hb => by
          obtain ⟨hlt, _⟩ := List.getElem?_eq_some_iff.mp hb
          exact hgap i l.length b b' hlt (by simp) (hleft hb) hopen
        rw [if_pos hopen, hfull, ← take_succ_appData]
        obtain ⟨rest, hrest⟩ := List.take_prefix (l.length + 1) p.records
        refine ⟨rest.flatMap SealedRecord.app, ?_⟩
        rw [← List.flatMap_append, hrest, Peer.appData]
      · rw [if_neg hopen, List.append_nil]
        apply ih (by omega)
        exact fun i j b₁ b₂ hij hj hi' ho => hgap i j b₁ b₂ hij (hleft hj) (hleft hi') ho

end Accepted

/-- The connection has consumed the records `w` and returned `got`. -/
structure Tracks (A : Aead) (key : Key) (iv : Nonce) (w : Wire) (c : TlsConn) (got : Bytes) :
    Prop where
  keyEq : c.apSKey = key
  ivEq : c.apSIv = iv
  seq : c.apSSeq = UInt64.ofNat (protectedData w).length
  bytes : got ++ c.apBuf.contents = accepted A key iv (protectedData w)

section Run
variable {A : Aead} {key : Key} {iv : Nonce} {w : Wire} {c : TlsConn} {got : Bytes}

theorem protectedData_skip {x : Option TlsRecord}
    (h : ∀ r, x = some r → ¬ (r.type = appDataType ∧ 16 ≤ r.data.length)) :
    protectedData (w ++ [x]) = protectedData w := by
  unfold protectedData
  rw [List.filterMap_append]
  cases x with
  | none => simp
  | some r => simp [h r rfl]

theorem protectedData_concat {r : TlsRecord} (ht : r.type = appDataType)
    (hlen : 16 ≤ r.data.length) : protectedData (w ++ [some r]) = protectedData w ++ [r.data] := by
  unfold protectedData
  rw [List.filterMap_append]
  simp [ht, hlen]

theorem Tracks.skip {x : Option TlsRecord} (h : Tracks A key iv w c got)
    (hx : ∀ r, x = some r → ¬ (r.type = appDataType ∧ 16 ≤ r.data.length)) :
    Tracks A key iv (w ++ [x]) c got := by
  refine ⟨h.keyEq, h.ivEq, ?_, ?_⟩
  · rw [protectedData_skip hx]
    exact h.seq
  · rw [protectedData_skip hx]
    exact h.bytes

/-- One record tried: the counter moves on, and the bytes accepted grow by what
`decrypt_record` finds. -/
theorem Tracks.tried {r : TlsRecord} {c' : TlsConn} {got' : Bytes} (h : Tracks A key iv w c got)
    (ht : r.type = appDataType) (hlen : 16 ≤ r.data.length) (hkey : c'.apSKey = c.apSKey)
    (hiv : c'.apSIv = c.apSIv) (hseq : c'.apSSeq = c.apSSeq + 1)
    (hbytes : got' ++ c'.apBuf.contents = got ++ c.apBuf.contents ++
      match (openRecord A c.apSKey c.apSIv c.apSSeq r.data).bind splitInner with
      | none => []
      | some (t, data) => if t = appDataType then data else []) :
    Tracks A key iv (w ++ [some r]) c' got' := by
  refine ⟨hkey.trans h.keyEq, hiv.trans h.ivEq, ?_, ?_⟩
  · rw [protectedData_concat ht hlen, List.length_append, List.length_singleton, hseq, h.seq,
      UInt64.ofNat_add]
    rfl
  · rw [hbytes, h.bytes, h.keyEq, h.ivEq, h.seq, protectedData_concat ht hlen]
    unfold accepted
    rw [List.zipIdx_append, List.flatMap_append]
    simp only [List.zipIdx_singleton, List.flatMap_cons, List.flatMap_nil, List.append_nil,
      Nat.zero_add]

/-- The loop consumes records from the front and keeps track of them. -/
theorem recvLoop_tracks (maxlen : Nat) (pass : Nat) (rest : Wire) (h : Tracks A key iv w c got)
    (hempty : c.apBuf.contents = []) :
    ∃ w', rest = w' ++ (recvLoop A maxlen pass c rest).2.2 ∧
      Tracks A key iv (w ++ w') (recvLoop A maxlen pass c rest).1
        (got ++ (recvLoop A maxlen pass c rest).2.1) := by
  induction pass generalizing w c rest with
  | zero => exact ⟨[], rfl, by simpa [recvLoop] using h⟩
  | succ pass ih =>
      match rest with
      | [] => exact ⟨[], rfl, by simpa [recvLoop] using h⟩
      | none :: rest =>
          refine ⟨[none], rfl, ?_⟩
          simpa [recvLoop] using h.skip (x := none) (fun r hr => nomatch hr)
      | some r :: rest =>
          -- Recursive calls start after the record `r`.
          have hgo : ∀ c', Tracks A key iv (w ++ [some r]) c' got → c'.apBuf.contents = [] →
              ∃ w', some r :: rest = w' ++ (recvLoop A maxlen pass c' rest).2.2 ∧
                Tracks A key iv (w ++ w') (recvLoop A maxlen pass c' rest).1
                  (got ++ (recvLoop A maxlen pass c' rest).2.1) := by
            intro c' hc' hnil
            obtain ⟨w', hrest, ht⟩ := ih rest hc' hnil
            refine ⟨some r :: w', ?_, ?_⟩
            · rw [List.cons_append, ← hrest]
            · rw [List.append_assoc] at ht
              exact ht
          by_cases halert : r.type = alertType
          · refine ⟨[some r], by simp [recvLoop, halert], ?_⟩
            have hskip := h.skip (x := some r) (by
              rintro _ ⟨⟩ ⟨ht, _⟩
              rw [halert] at ht
              exact absurd ht (by decide))
            simpa [recvLoop, halert] using hskip
          by_cases hplain : r.type = appDataType
          swap
          · have hskip := h.skip (x := some r) (by
              rintro _ ⟨⟩ ⟨ht, _⟩
              exact hplain ht)
            simpa [recvLoop, halert, hplain] using hgo c hskip hempty
          have hprot : ¬ r.type ≠ appDataType := not_not.mpr hplain
          by_cases hshort : r.data.length < 16
          · have hskip := h.skip (x := some r) (by
              rintro _ ⟨⟩ ⟨_, hlen⟩
              omega)
            simp only [recvLoop, if_neg halert, if_neg hprot, decryptRecord, if_pos hshort]
            exact hgo c hskip hempty
          · have hlen : 16 ≤ r.data.length := Nat.not_lt.mp hshort
            simp only [recvLoop, if_neg halert, if_neg hprot, decryptRecord, if_neg hshort]
            cases hres : (openRecord A c.apSKey c.apSIv c.apSSeq r.data).bind splitInner with
            | none =>
                apply hgo { c with apSSeq := c.apSSeq + 1 } _ hempty
                apply Tracks.tried h hplain hlen
                · rfl
                · rfl
                · rfl
                · rw [hres]
                  simp
            | some res =>
                obtain ⟨ict, data⟩ := res
                simp only
                by_cases hia : ict = alertType
                · rw [if_pos hia]
                  refine ⟨[some r], rfl, ?_⟩
                  apply Tracks.tried h hplain hlen
                  · rfl
                  · rfl
                  · rfl
                  · rw [hres]
                    simp [hia, alertType, appDataType]
                rw [if_neg hia]
                by_cases hid : ict = appDataType
                · rw [if_pos hid]
                  refine ⟨[some r], rfl, ?_⟩
                  obtain ⟨pt, hopen, hsplit⟩ := Option.bind_eq_some_iff.mp hres
                  have hfit : c.apBuf.count + (data.drop maxlen).length < appBufSize := by
                    have h1 := openRecord_length hopen
                    have h2 := splitInner_length hsplit
                    have h3 := r.length_le
                    have h4 : c.apBuf.count = 0 := by
                      rw [← Ring.length_contents, hempty]
                      rfl
                    have h5 : (data.drop maxlen).length ≤ data.length := by
                      rw [List.length_drop]
                      omega
                    simp only [recBufSize, appBufSize] at h3 ⊢
                    omega
                  apply Tracks.tried h hplain hlen
                  · rfl
                  · rfl
                  · rfl
                  · simp only [Ring.contents_writeAll hfit, hres, if_pos hid, hempty,
                      List.nil_append, List.append_nil]
                    rw [List.append_assoc, List.take_append_drop]
                · rw [if_neg hid]
                  apply hgo { c with apSSeq := c.apSSeq + 1 } _ hempty
                  apply Tracks.tried h hplain hlen
                  · rfl
                  · rfl
                  · rfl
                  · rw [hres]
                    simp [hid]

theorem tls13Recv_tracks (maxlen : Nat) (rest : Wire) (h : Tracks A key iv w c got) :
    ∃ w', rest = w' ++ (tls13Recv A c rest maxlen).2.2 ∧
      Tracks A key iv (w ++ w') (tls13Recv A c rest maxlen).1
        (got ++ (tls13Recv A c rest maxlen).2.1) := by
  unfold tls13Recv
  split
  · obtain ⟨hread, hleft⟩ := Ring.take_spec c.apBuf maxlen
    refine ⟨[], rfl, ?_⟩
    rw [List.append_nil]
    refine ⟨h.keyEq, h.ivEq, h.seq, ?_⟩
    simp only
    rw [hread, hleft, List.append_assoc, List.take_append_drop]
    exact h.bytes
  · next hsame =>
      apply recvLoop_tracks maxlen 10 rest h
      apply Ring.contents_eq_nil
      exact (not_not.mp hsame).symm

/-- All calls together return a prefix of what is accepted from the records they
consume. -/
theorem recvAll_accepted (maxlens : List Nat) (rest : Wire) (h : Tracks A key iv w c got) :
    ∃ w', rest = w' ++ restAll A c rest maxlens ∧
      got ++ recvAll A c rest maxlens <+: accepted A key iv (protectedData (w ++ w')) := by
  induction maxlens generalizing w c got rest with
  | nil =>
      refine ⟨[], rfl, ?_⟩
      rw [recvAll, List.append_nil, List.append_nil, ← h.bytes]
      exact List.prefix_append _ _
  | cons maxlen maxlens ih =>
      obtain ⟨w₁, hfirst, ht⟩ := tls13Recv_tracks maxlen rest h
      obtain ⟨w₂, hleft, hnext⟩ := ih (tls13Recv A c rest maxlen).2.2 ht
      refine ⟨w₁ ++ w₂, ?_, ?_⟩
      · rw [restAll, List.append_assoc, ← hleft]
        exact hfirst
      · rw [List.append_assoc, List.append_assoc] at hnext
        exact hnext

end Run

section Gap
variable {A : Aead} {c : TlsConn} {p : Peer} {w w' : Wire} {i : Nat}

theorem protectedData_append (w w' : Wire) :
    protectedData (w ++ w') = protectedData w ++ protectedData w' :=
  List.filterMap_append

/-- Whether a record opens in its place does not depend on the records behind it. -/
theorem opensAt_append {l l' : List Bytes} (hi : i < l.length) :
    OpensAt A c (l ++ l') i ↔ OpensAt A c l i := by
  rw [OpensAt, OpensAt, List.getElem?_append_left hi]

theorem OpensAt.lt {l : List Bytes} (h : OpensAt A c l i) : i < l.length := by
  obtain ⟨b, hb, -⟩ := h
  exact (List.getElem?_eq_some_iff.mp hb).1

/-- What holds of the whole wire holds of the records in front. -/
theorem NoGap.front (h : NoGap A c p (w ++ w')) : NoGap A c p w := by
  obtain ⟨hlen, hgap⟩ := h
  rw [protectedData_append] at hlen hgap
  rw [List.length_append] at hlen
  refine ⟨by omega, ?_⟩
  intro i j hij hj
  have hlt := hj.lt
  have hcase := hgap i j hij ((opensAt_append hlt).mpr hj)
  rwa [opensAt_append (by omega)] at hcase

end Gap

/-- The condition need only hold of the records that the calls consume. -/
theorem consumed_prefix (A : Aead) (c : TlsConn) (p : Peer)
    (hideal : Ideal A c.apSKey c.apSIv p) (hfresh : Established c) (w w' : Wire)
    (maxlens : List Nat) (hw : w = w' ++ restAll A c w maxlens) (hgap : NoGap A c p w') :
    recvAll A c w maxlens <+: p.appData := by
  have hstart : Tracks A c.apSKey c.apSIv [] c [] := by
    refine ⟨rfl, rfl, hfresh.2.2.1, ?_⟩
    rw [Ring.contents_eq_nil hfresh.2.2.2]
    rfl
  obtain ⟨w₁, hconsumed, hrun⟩ := recvAll_accepted maxlens w hstart
  obtain rfl : w₁ = w' := List.append_cancel_right (hconsumed.symm.trans hw)
  apply hrun.trans
  apply accepted_prefix hideal _ hgap.1
  intro i j b b' hij hj hi hopen
  rcases hgap.2 i j hij ⟨b, hj, hopen⟩ with ⟨b'', hb'', ho⟩ | hempty
  · rw [hi] at hb''
    cases hb''
    exact Or.inl ho
  · exact Or.inr hempty

/-- For every peer, every ideal AEAD and every attack without a gap, what
`tls13_recv` returns over any sequence of calls is a prefix of the application
data the peer sealed. -/
theorem recv_prefix (A : Aead) (c : TlsConn) (p : Peer) (hideal : Ideal A c.apSKey c.apSIv p)
    (hfresh : Established c) (w : Wire) (hgap : NoGap A c p w) (maxlens : List Nat) :
    recvAll A c w maxlens <+: p.appData := by
  have hstart : Tracks A c.apSKey c.apSIv [] c [] := by
    refine ⟨rfl, rfl, hfresh.2.2.1, ?_⟩
    rw [Ring.contents_eq_nil hfresh.2.2.2]
    rfl
  obtain ⟨w', hw, -⟩ := recvAll_accepted maxlens w hstart
  rw [hw] at hgap
  exact consumed_prefix A c p hideal hfresh w w' maxlens hw hgap.front

/-- A fresh connection under an all-zero key and IV. -/
def freshConn : TlsConn := { TlsConn.zero with used := true, state := 1 }

/-- A peer that seals the two records `a` and `b`. -/
def twoRecords : Peer where
  records :=
    [⟨appDataType, [97], 0, [1, 1] ++ List.replicate 16 1, by decide⟩,
      ⟨appDataType, [98], 0, [2, 2] ++ List.replicate 16 2, by decide⟩]
  length_le := by decide

/-- An AEAD that opens exactly these two records, each under its own nonce. -/
def twoRecordAead : Aead where
  openWith _ nonce _ ct tag :=
    if nonce = makeNonce (Vector.replicate 12 0) 0 ∧ ct = [1, 1] ∧ tag = List.replicate 16 1 then
      some [97, appDataType]
    else if nonce = makeNonce (Vector.replicate 12 0) 1 ∧ ct = [2, 2] ∧ tag = List.replicate 16 2 then
      some [98, appDataType]
    else none
  length_eq := by
    intro key nonce aad ct tag pt h
    split at h
    · next hc =>
        cases h
        rw [hc.2.1]
        rfl
    · split at h
      · next hc =>
          cases h
          rw [hc.2.1]
          rfl
      · cases h

theorem twoRecordAead_ideal :
    Ideal twoRecordAead freshConn.apSKey freshConn.apSIv twoRecords := by
  intro nonce aad ct tag pt h
  simp only [twoRecordAead] at h
  split at h
  · next hc =>
      cases h
      exact ⟨0, _, rfl, hc.1, by rw [hc.2.1, hc.2.2], rfl⟩
  · split at h
    · next hc =>
        cases h
        exact ⟨1, _, rfl, hc.1, by rw [hc.2.1, hc.2.2], rfl⟩
    · cases h

/-- A record of protected application data. -/
def appRecord (data : Bytes) (h : data.length ≤ recBufSize) : TlsRecord := ⟨appDataType, data, h⟩

/-- Both records arrive as they were sealed. -/
def honestWire : Wire :=
  [some (appRecord ([1, 1] ++ List.replicate 16 1) (by decide)),
    some (appRecord ([2, 2] ++ List.replicate 16 2) (by decide))]

theorem recv_prefix_honest : recvAll twoRecordAead freshConn honestWire [10, 10] <+:
    twoRecords.appData := by
  apply recv_prefix twoRecordAead freshConn twoRecords twoRecordAead_ideal ⟨rfl, rfl, rfl, rfl⟩
  refine ⟨by decide, ?_⟩
  rintro i j hij ⟨b, hj, _⟩
  obtain ⟨hlt, _⟩ := List.getElem?_eq_some_iff.mp hj
  have hj2 : j < 2 := hlt
  have hi : i = 0 := by omega
  subst hi
  exact Or.inl ⟨_, rfl, by decide⟩

/-- The attacker replaces the first record and lets the second through: it is
decrypted and returned as if it were the first. -/
theorem replaced_record_is_skipped :
    ¬ ∀ A c p, Ideal A c.apSKey c.apSIv p → Established c → ∀ w maxlens,
      recvAll A c w maxlens <+: p.appData := by
  intro hall
  have hbad := hall twoRecordAead freshConn twoRecords twoRecordAead_ideal ⟨rfl, rfl, rfl, rfl⟩
    [some (appRecord (List.replicate 18 0) (by decide)),
      some (appRecord ([2, 2] ++ List.replicate 16 2) (by decide))] [10]
  exact absurd hbad (by decide)

end OriaOS.Tls
