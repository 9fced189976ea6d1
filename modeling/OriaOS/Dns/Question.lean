import OriaOS.Dns.Parse
import OriaOS.Lib.Bytes

/-!
# Building a DNS question

`dns_build_query` writes a label with its length in one byte, whatever the length, so a
hostname with an empty label or one of more than 63 bytes asks for another name. The
hostnames that do not fit are refused.
-/

namespace OriaOS.Dns

open OriaOS.Lib

/-- `.` -/
def dot : UInt8 := 0x2E

/-- `dns_build_query`, the scan for the end of a label. -/
def firstLabel (p : List UInt8) : List UInt8 := p.takeWhile (· ≠ dot)

/-- `dns_build_query`, where the next label starts. -/
def nextLabel (p : List UInt8) : List UInt8 :=
  let p := p.drop (firstLabel p).length
  if p.head? = some dot then p.tail else p

/-- A string is its first label, a dot and what follows, or a label alone. -/
theorem firstLabel_cases (p : List UInt8) : dot ∉ firstLabel p ∧
    (p = firstLabel p ++ dot :: nextLabel p ∨ p = firstLabel p ∧ nextLabel p = []) := by
  induction p with
  | nil => exact ⟨List.not_mem_nil, Or.inr ⟨rfl, rfl⟩⟩
  | cons c cs ih =>
      by_cases hc : c = dot
      · have hlabel : firstLabel (c :: cs) = [] := by simp [firstLabel, hc]
        rw [nextLabel, hlabel, hc]
        exact ⟨List.not_mem_nil, Or.inl rfl⟩
      · have hlabel : firstLabel (c :: cs) = c :: firstLabel cs := by simp [firstLabel, hc]
        have hnext : nextLabel (c :: cs) = nextLabel cs := by
          rw [nextLabel, hlabel, nextLabel]
          rfl
        rw [hlabel, hnext]
        obtain ⟨hdot, hsplit⟩ := ih
        refine ⟨by simp [hdot, Ne.symm hc], ?_⟩
        apply hsplit.imp
        · exact congrArg (c :: ·)
        · exact fun h => ⟨congrArg (c :: ·) h.1, h.2⟩

theorem length_nextLabel (c : UInt8) (cs : List UInt8) :
    (nextLabel (c :: cs)).length < (c :: cs).length := by
  obtain ⟨-, h | ⟨-, h⟩⟩ := firstLabel_cases (c :: cs)
  · have hlen := congrArg List.length h
    rw [List.length_append, List.length_cons (a := dot)] at hlen
    omega
  · rw [h]
    exact Nat.zero_lt_succ _

/-- `dns_build_query`, the loop over the labels: the position behind them, unless one does
not fit, and the buffer. -/
def putLabels (buf : Nat → UInt8) (pos : Nat) : List UInt8 → Option Nat × (Nat → UInt8)
  | [] => (some pos, buf)
  | c :: cs =>
      let label := firstLabel (c :: cs)
      if 512 < pos + 1 + label.length + 5 then (none, buf)
      else
        putLabels (stored buf pos (UInt8.ofNat label.length :: label)) (pos + 1 + label.length)
          (nextLabel (c :: cs))
termination_by p => p.length
decreasing_by exact length_nextLabel c cs

/-- The header of a query with one question. -/
def queryHeader (txid : UInt16) : List UInt8 :=
  [(txid >>> 8).toUInt8, txid.toUInt8, 1, 0, 0, 1, 0, 0, 0, 0, 0, 0]

/-- `dns_build_query`: what it returns and the buffer. -/
def dnsBuildQuery (buf : Nat → UInt8) (hostname : CString) (txid : UInt16) :
    Int × (Nat → UInt8) :=
  match putLabels (stored buf 0 (queryHeader txid)) 12 hostname.bytes with
  | (none, buf) => (-1, buf)
  | (some pos, buf) => (pos + 5, stored buf pos [0, 0, 1, 0, 1])

/-! ## What a question means -/

/-- The labels of a hostname: what stands between its dots, without the empty rest behind a
trailing dot. -/
def labelsOf (hostname : List UInt8) : List (List UInt8) :=
  let parts := hostname.splitOn dot
  if parts.getLast? = some [] then parts.dropLast else parts

/-- A hostname that a question can hold: labels of 1 to 63 bytes. -/
def Encodable (hostname : List UInt8) : Prop :=
  ∀ l ∈ labelsOf hostname, 0 < l.length ∧ l.length ≤ 63

/-- The labels of a QNAME, with the bytes behind it. -/
def decodeName : List UInt8 → Option (List (List UInt8) × List UInt8)
  | [] => none
  | b :: rest =>
      if b = 0 then some ([], rest)
      else if b.toNat ≤ 63 ∧ b.toNat ≤ rest.length then
        (decodeName (rest.drop b.toNat)).map fun d => (rest.take b.toNat :: d.1, d.2)
      else none
termination_by bytes => bytes.length

/-- A query for a hostname: the buffer holds, up to the length returned and no further, a
header, a name with the labels of the hostname, type A and class IN. Only a hostname that
is encodable can be asked for (`Asks.encodable`). -/
structure Asks (hostname : CString) (txid : UInt16) (buf : Nat → UInt8)
    (r : Int × (Nat → UInt8)) : Prop where
  short : r.1 ≤ 512
  untouched : ∀ i : Nat, r.1 ≤ i → r.2 i = buf i
  question : ∃ qname, StandAt r.2 0 (queryHeader txid ++ (qname ++ [0, 1, 0, 1])) ∧
    r.1 = 12 + (qname.length + 4 : Nat) ∧ decodeName qname = some (labelsOf hostname.bytes, [])

/-- `dns_build_query` refuses the hostname, or asks for it. -/
def AsksOrRefuses (hostname : CString) (txid : UInt16) : Prop :=
  ∀ buf, (dnsBuildQuery buf hostname txid).1 = -1 ∨
    Asks hostname txid buf (dnsBuildQuery buf hostname txid)

/-- The bytes of labels with their lengths. -/
def putSize (labels : List (List UInt8)) : Nat := (labels.map fun l => 1 + l.length).sum

/-- The question for these labels has more than 512 bytes. -/
def TooLong (hostname : CString) : Prop := 512 < 12 + putSize (labelsOf hostname.bytes) + 5

/-! ## Labels -/

section Labels

theorem labelsOf_nil : labelsOf [] = [] := rfl

/-- The labels of a hostname start with its first. -/
theorem labelsOf_cons (c : UInt8) (cs : List UInt8) :
    labelsOf (c :: cs) = firstLabel (c :: cs) :: labelsOf (nextLabel (c :: cs)) := by
  obtain ⟨hdot, h | ⟨h, hnext⟩⟩ := firstLabel_cases (c :: cs)
  · obtain ⟨part, parts, hparts⟩ :=
      List.exists_cons_of_ne_nil (List.splitOn_ne_nil dot (nextLabel (c :: cs)))
    have hsplit : (c :: cs).splitOn dot = firstLabel (c :: cs) :: part :: parts := by
      calc
        (c :: cs).splitOn dot
            = (firstLabel (c :: cs) ++ dot :: nextLabel (c :: cs)).splitOn dot := by rw [← h]
        _ = firstLabel (c :: cs) :: (nextLabel (c :: cs)).splitOn dot :=
            List.splitOn_append_cons_self_of_not_mem hdot _
        _ = firstLabel (c :: cs) :: part :: parts := by rw [hparts]
    rw [labelsOf, labelsOf, hsplit, hparts, List.getLast?_cons_cons, List.dropLast_cons_cons]
    split <;> rfl
  · rw [hnext, labelsOf_nil, ← h, labelsOf, List.splitOn_eq_singleton (h ▸ hdot)]
    exact if_neg (by simp)

theorem putSize_cons (l : List UInt8) (ls : List (List UInt8)) :
    putSize (l :: ls) = 1 + l.length + putSize ls := rfl

/-- The bytes the loop writes for labels. -/
def putWire (labels : List (List UInt8)) : List UInt8 :=
  labels.flatMap fun l => UInt8.ofNat l.length :: l

theorem putWire_cons (l : List UInt8) (ls : List (List UInt8)) :
    putWire (l :: ls) = (UInt8.ofNat l.length :: l) ++ putWire ls := rfl

theorem length_putWire (labels : List (List UInt8)) : (putWire labels).length = putSize labels := by
  induction labels with
  | nil => rfl
  | cons l ls ih =>
      rw [putWire_cons, putSize_cons, List.length_append, List.length_cons, ih,
        Nat.add_comm l.length]

/-- The loop refuses labels that do not fit and writes the others. -/
theorem putLabels_spec (buf : Nat → UInt8) (pos : Nat) (p : List UInt8) (hpos : pos + 5 ≤ 512) :
    if 512 < pos + putSize (labelsOf p) + 5 then (putLabels buf pos p).1 = none
    else putLabels buf pos p
      = (some (pos + putSize (labelsOf p)), stored buf pos (putWire (labelsOf p))) := by
  induction buf, pos, p using putLabels.induct with
  | case1 buf pos =>
      rw [if_neg (by simpa [labelsOf_nil, putSize] using hpos), putLabels]
      rfl
  | case2 buf pos c cs label hlong =>
      have hsize : 512 < pos + putSize (labelsOf (c :: cs)) + 5 := by
        rw [labelsOf_cons, putSize_cons]
        change 512 < pos + 1 + (firstLabel (c :: cs)).length + 5 at hlong
        omega
      rw [if_pos hsize, putLabels, if_pos hlong]
  | case3 buf pos c cs label hfits ih =>
      have ih := ih (by omega)
      have hsize : pos + 1 + label.length + putSize (labelsOf (nextLabel (c :: cs)))
          = pos + putSize (labelsOf (c :: cs)) := by
        rw [labelsOf_cons, putSize_cons]
        change pos + 1 + (firstLabel (c :: cs)).length + _ = _
        omega
      have hwire : stored (stored buf pos (UInt8.ofNat label.length :: label))
          (pos + 1 + label.length) (putWire (labelsOf (nextLabel (c :: cs))))
            = stored buf pos (putWire (labelsOf (c :: cs))) := by
        rw [labelsOf_cons, putWire_cons, stored_append, List.length_cons, Nat.add_right_comm,
          Nat.add_assoc pos]
      rw [hsize, hwire] at ih
      rw [putLabels, if_neg hfits]
      exact ih

/-- The rules for labels read labels of 1 to 63 bytes. -/
theorem decodeName_labels {bytes rest : List UInt8} {ls : List (List UInt8)}
    (h : decodeName bytes = some (ls, rest)) : ∀ l ∈ ls, 0 < l.length ∧ l.length ≤ 63 := by
  induction bytes using decodeName.induct generalizing ls with
  | case1 => cases h.symm.trans decodeName.eq_1
  | case2 tail =>
      rw [decodeName, if_pos rfl] at h
      obtain rfl : [] = ls := congrArg Prod.fst (Option.some.inj h)
      exact nofun
  | case3 b tail hb hfits ih =>
      rw [decodeName, if_neg hb, if_pos hfits] at h
      obtain ⟨⟨ls', rest'⟩, hd, heq⟩ := Option.map_eq_some_iff.mp h
      cases heq
      have hpos : 0 < b.toNat := Nat.pos_of_ne_zero fun h0 => hb (UInt8.toNat_inj.mp h0)
      rw [List.forall_mem_cons, List.length_take, Nat.min_eq_left hfits.2]
      exact ⟨⟨hpos, hfits.1⟩, ih hd⟩
  | case4 b tail hb hfits =>
      rw [decodeName, if_neg hb, if_neg hfits] at h
      cases h

/-- They read back labels of 1 to 63 bytes. -/
theorem decodeName_putWire {ls : List (List UInt8)}
    (h : ∀ l ∈ ls, 0 < l.length ∧ l.length ≤ 63) :
    decodeName (putWire ls ++ [0]) = some (ls, []) := by
  induction ls with
  | nil => simp [putWire, decodeName]
  | cons l ls ih =>
      obtain ⟨⟨hpos, hshort⟩, hls⟩ := List.forall_mem_cons.mp h
      have hwire : putWire (l :: ls) ++ [0]
          = UInt8.ofNat l.length :: (l ++ (putWire ls ++ [0])) := by
        rw [putWire_cons, List.cons_append, List.cons_append, List.append_assoc]
      have hbyte : (UInt8.ofNat l.length).toNat = l.length := by
        rw [UInt8.toNat_ofNat', Nat.mod_eq_of_lt (by omega)]
      have hne : UInt8.ofNat l.length ≠ 0 := by
        intro h0
        rw [h0] at hbyte
        exact absurd hbyte.symm (Nat.ne_of_gt hpos)
      have hfits : l.length ≤ 63 ∧ l.length ≤ (l ++ (putWire ls ++ [0])).length :=
        ⟨hshort, by rw [List.length_append]; exact Nat.le_add_right _ _⟩
      rw [hwire, decodeName, if_neg hne, hbyte, if_pos hfits, List.drop_left, List.take_left,
        ih hls]
      rfl

end Labels

/-! ## Hostnames -/

section Query
variable {hostname : CString} {txid : UInt16}

theorem length_queryHeader (txid : UInt16) : (queryHeader txid).length = 12 := rfl

theorem Asks.encodable {buf : Nat → UInt8} {r : Int × (Nat → UInt8)}
    (h : Asks hostname txid buf r) : Encodable hostname.bytes := by
  obtain ⟨_, -, -, hdecode⟩ := h.question
  exact decodeName_labels hdecode

/-- A hostname that is too long is refused. -/
theorem TooLong.refused (h : TooLong hostname) (buf : Nat → UInt8) :
    (dnsBuildQuery buf hostname txid).1 = -1 := by
  have hloop := putLabels_spec (stored buf 0 (queryHeader txid)) 12 hostname.bytes (by decide)
  unfold TooLong at h
  rw [if_pos h] at hloop
  rw [dnsBuildQuery]
  split
  · rfl
  · rename_i heq
    rw [heq] at hloop
    cases hloop

/-- The query for a hostname that fits. -/
theorem dnsBuildQuery_of_fits (h : ¬ TooLong hostname) (buf : Nat → UInt8) :
    dnsBuildQuery buf hostname txid
      = (((12 + putSize (labelsOf hostname.bytes) : Nat) : Int) + 5,
          stored buf 0 (queryHeader txid ++
            (putWire (labelsOf hostname.bytes) ++ [0, 0, 1, 0, 1]))) := by
  have hloop := putLabels_spec (stored buf 0 (queryHeader txid)) 12 hostname.bytes (by decide)
  unfold TooLong at h
  rw [if_neg h] at hloop
  rw [dnsBuildQuery, hloop, stored_append, stored_append, length_queryHeader, length_putWire,
    Nat.zero_add]

/-- A hostname that fits is asked for if its labels allow it. -/
theorem Encodable.asks (henc : Encodable hostname.bytes) (h : ¬ TooLong hostname)
    (buf : Nat → UInt8) : Asks hostname txid buf (dnsBuildQuery buf hostname txid) := by
  have hwire : putWire (labelsOf hostname.bytes) ++ [0, 0, 1, 0, 1]
      = (putWire (labelsOf hostname.bytes) ++ [0]) ++ [0, 1, 0, 1] := by
    rw [List.append_assoc]
    rfl
  have hsize := length_putWire (labelsOf hostname.bytes)
  rw [dnsBuildQuery_of_fits h buf]
  unfold TooLong at h
  refine ⟨?_, ?_, _, ?_, ?_, decodeName_putWire henc⟩
  · dsimp only
    omega
  · intro i hi
    apply stored_of_outside
    simp only [List.length_append, length_queryHeader, hsize, List.length_cons, List.length_nil]
    omega
  · rw [← hwire]
    exact standAt_stored _
  · simp only [List.length_append, hsize, List.length_cons, List.length_nil]
    omega

end Query

/-- `dns_build_query` refuses a hostname or asks for it exactly if the hostname is too long
for the buffer or every label has 1 to 63 bytes. -/
theorem asksOrRefuses_iff (hostname : CString) (txid : UInt16) :
    AsksOrRefuses hostname txid ↔ TooLong hostname ∨ Encodable hostname.bytes := by
  by_cases hlong : TooLong hostname
  · exact iff_of_true (fun buf => Or.inl (hlong.refused buf)) (Or.inl hlong)
  rw [or_iff_right hlong]
  constructor
  · intro h
    rcases h fun _ => 0 with hrefused | hasks
    · rw [dnsBuildQuery_of_fits hlong] at hrefused
      dsimp only at hrefused
      omega
    · exact hasks.encodable
  · exact fun henc buf => Or.inr (henc.asks hlong buf)

/-- `a..b` is neither refused nor asked for. -/
theorem not_every_hostname_asked : ¬ ∀ hostname txid, AsksOrRefuses hostname txid := by
  intro h
  have hlabels : labelsOf [97, dot, dot, 98] = [[97], [], [98]] := by decide
  have hfits : ¬ TooLong ⟨[97, dot, dot, 98], by decide⟩ := by
    unfold TooLong
    rw [hlabels]
    decide
  rcases h ⟨[97, dot, dot, 98], by decide⟩ 7 fun _ => 0 with hrefused | hasks
  · rw [dnsBuildQuery_of_fits hfits] at hrefused
    dsimp only at hrefused
    omega
  · have henc := hasks.encodable
    unfold Encodable at henc
    rw [hlabels] at henc
    exact absurd (henc [] (by decide)).1 (Nat.lt_irrefl 0)

end OriaOS.Dns
