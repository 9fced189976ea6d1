import OriaOS.Dns.Parse
import Mathlib.Data.Fin.Basic
import Mathlib.Tactic.DeriveFintype

/-!
# Responses and their first address

Responses as RFC 1035 writes them: names are labels that end with the root or with a
pointer. The parser finds the first address as long as no answer up to it has a name of
labels and then a pointer, for there the loop over labels takes the pointer's first byte
for a length of at least 192.
-/

namespace OriaOS.Dns

open OriaOS.Lib OriaOS.Lib.Reading

/-- A label of a name: 1 to 63 bytes. -/
structure Label where
  bytes : List UInt8
  nonempty : 0 < bytes.length
  short : bytes.length ≤ 63

/-- A label with its length. -/
def Label.wire (l : Label) : List UInt8 := UInt8.ofNat l.bytes.length :: l.bytes

/-- How a name ends. A pointer has 14 bits. -/
inductive Ending
  | root
  | pointer (target : Fin 16384)
deriving DecidableEq

/-- The first byte of an ending. -/
def Ending.first : Ending → UInt8
  | .root => 0
  | .pointer target => UInt8.ofNat (192 + target / 256)

def Ending.wire : Ending → List UInt8
  | .root => [0]
  | .pointer target => [UInt8.ofNat (192 + target / 256), UInt8.ofNat target]

/-- A name in a message. -/
structure Name where
  labels : List Label
  ending : Ending

/-- The labels of a name in a message. -/
def wireLabels (labels : List Label) : List UInt8 := labels.flatMap Label.wire

def Name.wire (n : Name) : List UInt8 := wireLabels n.labels ++ n.ending.wire

/-- Labels followed by a pointer. -/
def Name.Mixed (n : Name) : Prop := n.labels ≠ [] ∧ n.ending ≠ .root

/-- A number in two bytes. -/
def word16 (n : Nat) : List UInt8 := [UInt8.ofNat (n / 256), UInt8.ofNat n]

/-- A resource record. The data of an address record is the address. -/
structure Record where
  name : Name
  type : UInt16
  cls : UInt16
  ttl : UInt32
  data : List UInt8
  short : data.length < 65536
  address : type = 1 → data.length = 4

/-- What follows the name of a record. -/
def Record.body (r : Record) : List UInt8 :=
  word16 r.type.toNat ++ (word16 r.cls.toNat ++ (word16 (r.ttl.toNat / 65536) ++
    (word16 r.ttl.toNat ++ (word16 r.data.length ++ r.data))))

def Record.wire (r : Record) : List UInt8 := r.name.wire ++ r.body

def wireRecords (rs : List Record) : List UInt8 := rs.flatMap Record.wire

/-- A response with one question. The flags are those beside the response bit; the last
bytes are the sections behind the answers. -/
structure Response where
  id : UInt16
  flags : Fin 128
  flags' : UInt8
  qname : Name
  qtype : UInt16
  qclass : UInt16
  answers : List Record
  few : answers.length < 65536
  nscount : UInt16
  arcount : UInt16
  rest : List UInt8

/-- The header, up to the question. -/
def Response.header (r : Response) : List UInt8 :=
  word16 r.id.toNat ++ ([UInt8.ofNat (128 + r.flags), r.flags'] ++ (word16 1 ++
    (word16 r.answers.length ++ (word16 r.nscount.toNat ++ word16 r.arcount.toNat))))

def Response.question (r : Response) : List UInt8 :=
  r.qname.wire ++ (word16 r.qtype.toNat ++ word16 r.qclass.toNat)

def Response.wire (r : Response) : List UInt8 :=
  r.header ++ (r.question ++ (wireRecords r.answers ++ r.rest))

/-- The first address record. -/
def firstA (answers : List Record) : Option Record := answers.find? fun r => r.type = 1

/-- The outcome that goes with the first address record. -/
def Outcome.Gives (o : Outcome) : Option Record → Prop
  | some a => o.1 = 1 ∧ [o.2 0, o.2 1, o.2 2, o.2 3] = a.data
  | none => o.1 = 0

/-- The parser returns 1 with the address of the first address record if there is one, and
0 otherwise, whatever stands behind the packet in memory. -/
def Response.Answered (r : Response) : Prop :=
  ∀ (buf : Nat → UInt8) (outIp : Nat → UInt8) (fuel : Nat), StandAt buf 0 r.wire →
    r.wire.length ≤ fuel →
    Returns ((dnsParseResponse fuel r.wire.length r.id outIp).value buf)
      (Outcome.Gives · (firstA r.answers))

/-- The records up to the first address record, with it. -/
def upToA : List Record → List Record
  | [] => []
  | r :: rs => if r.type = 1 then [r] else r :: upToA rs

/-- No name up to the first address is labels and then a pointer. -/
def Response.Clean (r : Response) : Prop := ∀ a ∈ upToA r.answers, ¬ a.name.Mixed

/-- A name of labels and then a pointer comes before any address record is read, and what is
behind the first byte of its pointer is no longer than this byte as a length. -/
def Response.Overruns (r : Response) : Prop :=
  ∃ pre a post, r.answers = pre ++ a :: post ∧ (∀ b ∈ pre, b.type ≠ 1 ∧ ¬ b.name.Mixed) ∧
    a.name.Mixed ∧
    (1 + a.body.length + (wireRecords post ++ r.rest).length ≤ a.name.ending.first.toNat)

/-! ## Bytes on the wire -/

theorem pointer_bits : ∀ b : UInt8, b &&& 0xC0 = 0xC0 ↔ 192 ≤ b.toNat := by
  have h : ∀ n : Fin 256, UInt8.ofNat n &&& 0xC0 = 0xC0 ↔ 192 ≤ (UInt8.ofNat n).toNat := by
    decide +kernel
  intro b
  simpa using h ⟨b.toNat, b.toNat_lt⟩

theorem ne_zero_of_pos {b : UInt8} (h : 0 < b.toNat) : b ≠ 0 := by
  rintro rfl
  exact Nat.lt_irrefl 0 h

theorem response_bit : ∀ n : Fin 128, UInt8.ofNat (128 + n) &&& 0x80 ≠ 0 := by
  decide +kernel

section Wire
variable {mem : Nat → UInt8} {pos : Nat}

@[simp] theorem length_word16 (n : Nat) : (word16 n).length = 2 := rfl

/-- A number that stands in memory is read back. -/
theorem standAt_word16 {n : Nat} (h : StandAt mem pos (word16 n)) (hn : n < 65536) :
    (mem pos).toNat * 256 + (mem (pos + 1)).toNat = n := by
  obtain ⟨hhi, hlo, -⟩ : mem pos = _ ∧ mem (pos + 1) = _ ∧ _ := by
    simpa only [word16, standAt_cons] using h
  rw [hhi, hlo, UInt8.toNat_ofNat', UInt8.toNat_ofNat']
  omega

theorem Label.first_toNat (l : Label) : (UInt8.ofNat l.bytes.length).toNat = l.bytes.length := by
  have := l.short
  rw [UInt8.toNat_ofNat', Nat.mod_eq_of_lt (by omega)]

theorem Ending.pointer_first (target : Fin 16384) :
    (Ending.pointer target).first.toNat = 192 + target / 256 := by
  have := target.isLt
  rw [Ending.first, UInt8.toNat_ofNat', Nat.mod_eq_of_lt (by omega)]

end Wire

/-! ## Names -/

section Names
variable {mem : Nat → UInt8} {len fuel pos : Nat}

/-- A loop that skips one label in a round skips labels. -/
theorem labels_skipped (skip : Nat → Nat → Reading Nat Nat)
    (hskip : ∀ fuel pos (l : Label), StandAt mem pos l.wire → pos < len →
      (skip (fuel + 1) pos).value mem = (skip fuel (pos + l.wire.length)).value mem)
    {ls : List Label} (hls : StandAt mem pos (wireLabels ls))
    (hpos : pos + (wireLabels ls).length < len) (hfuel : len - pos < fuel) :
    ∃ fuel', len - (pos + (wireLabels ls).length) < fuel' ∧
      (skip fuel pos).value mem = (skip fuel' (pos + (wireLabels ls).length)).value mem := by
  induction ls generalizing fuel pos with
  | nil => exact ⟨fuel, hfuel, rfl⟩
  | cons l ls ih =>
      have hwire : wireLabels (l :: ls) = l.wire ++ wireLabels ls := List.flatMap_cons
      rw [hwire] at hls hpos ⊢
      obtain ⟨hl, hls⟩ := standAt_append.mp hls
      rw [List.length_append, ← Nat.add_assoc] at hpos ⊢
      have hlen : 0 < l.wire.length := Nat.zero_lt_succ _
      obtain ⟨k, rfl⟩ : ∃ k, fuel = k + 1 := ⟨fuel - 1, by omega⟩
      have hk : len - (pos + l.wire.length) < k := by omega
      obtain ⟨fuel', hfuel', heq⟩ := ih hls hpos hk
      exact ⟨fuel', hfuel', (hskip k pos l hl (by omega)).trans heq⟩

theorem Label.standAt {l : Label} (h : StandAt mem pos l.wire) :
    (mem pos).toNat = l.bytes.length := by
  rw [Label.wire, standAt_cons] at h
  rw [h.1, l.first_toNat]

theorem Label.length_wire (l : Label) : l.wire.length = 1 + l.bytes.length := by
  rw [Label.wire, List.length_cons, Nat.add_comm]

theorem skipQname_label (fuel pos : Nat) (l : Label) (h : StandAt mem pos l.wire)
    (hpos : pos < len) :
    (skipQname len (fuel + 1) pos).value mem
      = (skipQname len fuel (pos + l.wire.length)).value mem := by
  have hfirst := Label.standAt h
  have hl := l.nonempty
  have hs := l.short
  have hzero : mem pos ≠ 0 := ne_zero_of_pos (by omega)
  have hbits : ¬ mem pos &&& 0xC0 = 0xC0 := by
    rw [pointer_bits]
    omega
  rw [skipQname, if_pos hpos, value_bind, value_byte, Option.bind_some, if_neg hzero,
    if_neg hbits, hfirst, l.length_wire, Nat.add_assoc]

theorem skipLabels_label (fuel pos : Nat) (l : Label) (h : StandAt mem pos l.wire)
    (hpos : pos < len) :
    (skipLabels len (fuel + 1) pos).value mem
      = (skipLabels len fuel (pos + l.wire.length)).value mem := by
  have hfirst := Label.standAt h
  have hl := l.nonempty
  have hzero : mem pos ≠ 0 := ne_zero_of_pos (by omega)
  rw [skipLabels, if_pos hpos, value_bind, value_byte, Option.bind_some, if_neg hzero, hfirst,
    l.length_wire, Nat.add_assoc]

/-- A NAME that does not start with a pointer goes through the loop over labels. -/
theorem skipName_labels (h : ¬ mem pos &&& 0xC0 = 0xC0) :
    (skipName len fuel pos).value mem = (skipLabels len fuel pos).value mem := by
  rw [skipName]
  split
  · rw [value_bind, value_byte, Option.bind_some, if_neg h]
  · rfl

/-- The loop over QNAME ends behind the name, however it is written. -/
theorem skipQname_name {n : Name} (h : StandAt mem pos n.wire) (hin : pos + n.wire.length ≤ len)
    (hfuel : len - pos < fuel) :
    (skipQname len fuel pos).value mem = some (pos + n.wire.length) := by
  obtain ⟨hls, hend⟩ := standAt_append.mp h
  have hlen : n.wire.length = (wireLabels n.labels).length + n.ending.wire.length :=
    List.length_append
  have hshort : 0 < n.ending.wire.length := by
    cases n.ending <;> simp [Ending.wire]
  obtain ⟨k, hk, heq⟩ := labels_skipped (skipQname len) skipQname_label hls (by omega)
    hfuel
  obtain ⟨k, rfl⟩ : ∃ j, k = j + 1 := ⟨k - 1, by omega⟩
  rw [heq, skipQname, if_pos (by omega), value_bind, value_byte, Option.bind_some, hlen,
    ← Nat.add_assoc]
  cases he : n.ending with
  | root =>
      have hfirst : mem (pos + (wireLabels n.labels).length) = 0 := by
        simpa [he, Ending.wire] using hend
      rw [hfirst]
      rfl
  | pointer target =>
      have hfirst : mem (pos + (wireLabels n.labels).length) = (Ending.pointer target).first := by
        rw [he] at hend
        exact (standAt_cons.mp hend).1
      have hbyte := Ending.pointer_first target
      have hbits : (Ending.pointer target).first &&& 0xC0 = 0xC0 :=
        (pointer_bits _).mpr (by omega)
      rw [hfirst, if_neg (ne_zero_of_pos (by omega)), if_pos hbits]
      rfl

/-- The NAME of an answer is skipped if it is labels, or a pointer alone. -/
theorem skipName_name {n : Name} (hn : ¬ n.Mixed) (h : StandAt mem pos n.wire)
    (hin : pos + n.wire.length ≤ len) (hfuel : len - pos < fuel) :
    (skipName len fuel pos).value mem = some (pos + n.wire.length) := by
  obtain ⟨labels, ending⟩ := n
  obtain ⟨hls, hend⟩ := standAt_append.mp h
  have hlen : (Name.mk labels ending).wire.length
      = (wireLabels labels).length + ending.wire.length := List.length_append
  rw [hlen] at hin ⊢
  cases ending with
  | pointer target =>
      obtain rfl : labels = [] := by
        by_contra hne
        exact hn ⟨hne, nofun⟩
      have hfirst : mem pos = (Ending.pointer target).first := (standAt_cons.mp hend).1
      have hbits : mem pos &&& 0xC0 = 0xC0 := by
        rw [pointer_bits, hfirst, Ending.pointer_first]
        omega
      have hlt : pos < len := Nat.lt_of_lt_of_le (Nat.lt_add_of_pos_right Nat.two_pos) hin
      rw [skipName, if_pos hlt, value_bind, value_byte, Option.bind_some, if_pos hbits]
      rfl
  | root =>
      obtain ⟨k, hk, heq⟩ := labels_skipped (skipLabels len) skipLabels_label hls
        (Nat.lt_of_lt_of_le (Nat.lt_succ_self _) hin) hfuel
      have hzero : mem (pos + (wireLabels labels).length) = 0 := (standAt_cons.mp hend).1
      have hloop : (skipLabels len fuel pos).value mem
          = some (pos + ((wireLabels labels).length + 1)) := by
        obtain ⟨j, rfl⟩ : ∃ j, k = j + 1 := ⟨k - 1, by omega⟩
        have hlt : pos + (wireLabels labels).length < len := hin
        rw [heq, skipLabels, if_pos hlt, value_bind, value_byte, Option.bind_some, hzero]
        rfl
      rw [skipName_labels, hloop]
      · rfl
      · rw [pointer_bits]
        cases labels with
        | nil =>
            have hzero : mem pos = 0 := hzero
            rw [hzero]
            decide
        | cons l ls =>
            have := l.short
            have hl : StandAt mem pos l.wire := by
              rw [wireLabels, List.flatMap_cons] at hls
              exact (standAt_append.mp hls).1
            rw [Label.standAt hl]
            omega

/-- Behind labels the first byte of a pointer is a length. Where it leads past the end the
loop is over. -/
theorem skipName_mixed {n : Name} (hn : n.Mixed) (h : StandAt mem pos n.wire)
    (hin : pos + n.wire.length ≤ len) (hfuel : len - pos < fuel)
    (hover : len ≤ pos + (wireLabels n.labels).length + 1 + n.ending.first.toNat) :
    ∃ p, len ≤ p ∧ (skipName len fuel pos).value mem = some p := by
  obtain ⟨labels, ending⟩ := n
  obtain ⟨hne, hroot⟩ := hn
  obtain ⟨l, ls, rfl⟩ := List.exists_cons_of_ne_nil hne
  obtain ⟨target, rfl⟩ : ∃ target, ending = .pointer target := by
    cases ending with
    | root => exact absurd rfl hroot
    | pointer target => exact ⟨target, rfl⟩
  obtain ⟨hls, hend⟩ : StandAt mem pos (wireLabels (l :: ls)) ∧
      StandAt mem (pos + (wireLabels (l :: ls)).length) (Ending.pointer target).wire :=
    standAt_append.mp h
  have hlen : (Name.mk (l :: ls) (.pointer target)).wire.length
      = (wireLabels (l :: ls)).length + 2 := List.length_append
  rw [hlen] at hin
  have hl : StandAt mem pos l.wire := by
    rw [wireLabels, List.flatMap_cons] at hls
    exact (standAt_append.mp hls).1
  have hlabel : ¬ mem pos &&& 0xC0 = 0xC0 := by
    have := l.short
    rw [pointer_bits, Label.standAt hl]
    omega
  obtain ⟨k, hk, heq⟩ := labels_skipped (skipLabels len) skipLabels_label hls
    (by omega) hfuel
  have hfirst : mem (pos + (wireLabels (l :: ls)).length) = (Ending.pointer target).first :=
    (standAt_cons.mp hend).1
  change len ≤ pos + (wireLabels (l :: ls)).length + 1 + (Ending.pointer target).first.toNat
    at hover
  have hbyte := Ending.pointer_first target
  obtain ⟨j, rfl⟩ : ∃ j, k = j + 1 := ⟨k - 1, by omega⟩
  refine ⟨_, hover, ?_⟩
  rw [skipName_labels hlabel, heq, skipLabels, if_pos (by omega), value_bind, value_byte,
    Option.bind_some, hfirst, if_neg (ne_zero_of_pos (b := (Ending.pointer target).first)
      (by omega))]
  obtain ⟨i, rfl⟩ : ∃ i, j = i + 1 := ⟨j - 1, by omega⟩
  rw [skipLabels, if_neg (Nat.not_lt.mpr hover)]
  rfl

end Names

/-! ## Answers -/

section Answers
variable {mem : Nat → UInt8} {len fuel pos : Nat} {outIp : Nat → UInt8}

theorem Record.length_body (r : Record) : r.body.length = 10 + r.data.length := by
  simp only [Record.body, List.length_append, length_word16]
  omega

/-- What the parser reads of the fixed fields. -/
theorem Record.fields {r : Record} (h : StandAt mem pos r.body) :
    (mem pos).toNat * 256 + (mem (pos + 1)).toNat = r.type.toNat ∧
      (mem (pos + 8)).toNat * 256 + (mem (pos + 8 + 1)).toNat = r.data.length ∧
      StandAt mem (pos + 10) r.data := by
  simp only [Record.body, standAt_append, length_word16] at h
  obtain ⟨htype, -, -, -, hlen, hdata⟩ := h
  exact ⟨standAt_word16 htype r.type.toNat_lt, standAt_word16 hlen r.short, hdata⟩

/-- One answer whose name is skipped. -/
theorem findAddress_record {r : Record} {left : Nat} (hpos : pos < len)
    (hname : (skipName len fuel pos).value mem = some (pos + r.name.wire.length))
    (h : StandAt mem (pos + r.name.wire.length) r.body)
    (hin : pos + r.wire.length ≤ len) (htype : r.type ≠ 1) :
    (findAddress len fuel outIp (left + 1) pos).value mem
      = (findAddress len fuel outIp left (pos + r.wire.length)).value mem := by
  obtain ⟨ht, hl, -⟩ := Record.fields h
  have hlen : pos + r.wire.length = pos + r.name.wire.length + 10 + r.data.length := by
    rw [Record.wire, List.length_append, r.length_body]
    omega
  have hne : ¬ r.type.toNat = 1 := fun h => htype (UInt16.toNat_inj.mp h)
  rw [findAddress, if_pos hpos, value_bind, hname, Option.bind_some, if_neg (by omega), value_bind,
    value_be16, Option.bind_some, ht, value_bind, value_be16, Option.bind_some, hl,
    if_neg fun h => hne h.1, hlen]

/-- The first address is handed out. -/
theorem findAddress_address {r : Record} {left : Nat} (hpos : pos < len)
    (hname : (skipName len fuel pos).value mem = some (pos + r.name.wire.length))
    (h : StandAt mem (pos + r.name.wire.length) r.body)
    (hin : pos + r.wire.length ≤ len) (htype : r.type = 1) :
    Returns ((findAddress len fuel outIp (left + 1) pos).value mem) (Outcome.Gives · (some r)) := by
  obtain ⟨ht, hl, hdata⟩ := Record.fields h
  have hfour := r.address htype
  have hlen : pos + r.wire.length = pos + r.name.wire.length + 10 + r.data.length := by
    rw [Record.wire, List.length_append, r.length_body]
    omega
  have hone : r.type.toNat = 1 := by
    rw [htype]
    rfl
  obtain ⟨a, b, c, d, habcd⟩ := List.length_eq_four.mp hfour
  rw [findAddress, if_pos hpos, value_bind, hname, Option.bind_some, if_neg (by omega), value_bind,
    value_be16, Option.bind_some, ht, value_bind, value_be16, Option.bind_some, hl,
    if_pos ⟨hone, hfour, by omega⟩]
  rw [habcd] at hdata
  simp only [standAt_cons] at hdata
  obtain ⟨ha, hb, hc, hd, -⟩ := hdata
  refine ⟨_, rfl, rfl, ?_⟩
  rw [habcd, ← ha, ← hb, ← hc, ← hd]
  rfl

/-- The loop over answers finds the first address if no name in front of it is mixed. -/
theorem findAddress_clean {rs : List Record} (hclean : ∀ a ∈ upToA rs, ¬ a.name.Mixed)
    (h : StandAt mem pos (wireRecords rs)) (hin : pos + (wireRecords rs).length ≤ len)
    (hfuel : len - pos < fuel ∨ len ≤ pos) :
    Returns ((findAddress len fuel outIp rs.length pos).value mem)
      (Outcome.Gives · (firstA rs)) := by
  induction rs generalizing pos with
  | nil => exact Returns.some rfl
  | cons r rs ih =>
      have hwire : wireRecords (r :: rs) = r.wire ++ wireRecords rs := List.flatMap_cons
      rw [hwire] at h hin
      obtain ⟨hr, hrs⟩ := standAt_append.mp h
      obtain ⟨hname, hbody⟩ := standAt_append.mp hr
      rw [List.length_append] at hin
      have hlen : r.wire.length = r.name.wire.length + r.body.length := List.length_append
      have hten := r.length_body
      have hmixed : ¬ r.name.Mixed := by
        apply hclean
        rw [upToA]
        split <;> exact List.mem_cons_self
      have hskip : (skipName len fuel pos).value mem = some (pos + r.name.wire.length) :=
        skipName_name hmixed hname (by omega) (by omega)
      by_cases htype : r.type = 1
      · have hfirst : firstA (r :: rs) = some r := List.find?_cons_of_pos (by simpa using htype)
        rw [hfirst]
        exact findAddress_address (by omega) hskip hbody (by omega) htype
      · have hfirst : firstA (r :: rs) = firstA rs :=
          List.find?_cons_of_neg (by simpa using htype)
        rw [hfirst, List.length_cons, findAddress_record (by omega) hskip hbody (by omega) htype]
        apply ih _ hrs (by omega) (by omega)
        intro a ha
        apply hclean
        rw [upToA, if_neg htype]
        exact List.mem_cons_of_mem _ ha

/-- A mixed name whose pointer leads past the end hides all that follows. -/
theorem findAddress_overrun {pre post : List Record} {a : Record}
    (hpre : ∀ b ∈ pre, b.type ≠ 1 ∧ ¬ b.name.Mixed) (ha : a.name.Mixed)
    (h : StandAt mem pos (wireRecords (pre ++ a :: post)))
    (hin : pos + (wireRecords (pre ++ a :: post)).length ≤ len)
    (hover : len ≤ pos + (wireRecords pre).length + (wireLabels a.name.labels).length + 1
      + a.name.ending.first.toNat)
    (hfuel : len - pos < fuel ∨ len ≤ pos) :
    (findAddress len fuel outIp (pre ++ a :: post).length pos).value mem = some (0, outIp) := by
  induction pre generalizing pos with
  | nil =>
      have hwire : wireRecords (a :: post) = a.wire ++ wireRecords post := List.flatMap_cons
      rw [List.nil_append] at h hin ⊢
      rw [hwire] at h hin
      rw [List.length_append] at hin
      obtain ⟨hname, -⟩ := standAt_append.mp (standAt_append.mp h).1
      have hlen : a.wire.length = a.name.wire.length + a.body.length := List.length_append
      have hten := a.length_body
      have hover : len ≤ pos + (wireLabels a.name.labels).length + 1
        + a.name.ending.first.toNat := hover
      obtain ⟨p, hp, hskip⟩ : ∃ p, len ≤ p ∧ (skipName len fuel pos).value mem = some p :=
        skipName_mixed ha hname (by omega) (by omega) hover
      rw [List.length_cons, findAddress, if_pos (by omega), value_bind, hskip, Option.bind_some,
        if_pos (by omega)]
      rfl
  | cons r rs ih =>
      have hwire : wireRecords (r :: rs ++ a :: post) = r.wire ++ wireRecords (rs ++ a :: post) :=
        List.flatMap_cons
      have hwire' : wireRecords (r :: rs) = r.wire ++ wireRecords rs := List.flatMap_cons
      rw [hwire] at h hin
      rw [List.length_append] at hin
      rw [hwire', List.length_append] at hover
      obtain ⟨hr, hrs⟩ := standAt_append.mp h
      obtain ⟨hname, hbody⟩ := standAt_append.mp hr
      have hlen : r.wire.length = r.name.wire.length + r.body.length := List.length_append
      have hten := r.length_body
      obtain ⟨htype, hmixed⟩ := hpre r List.mem_cons_self
      have hskip : (skipName len fuel pos).value mem = some (pos + r.name.wire.length) :=
        skipName_name hmixed hname (by omega) (by omega)
      rw [List.cons_append, List.length_cons,
        findAddress_record (by omega) hskip hbody (by omega) htype]
      exact ih (fun b hb => hpre b (List.mem_cons_of_mem _ hb)) hrs (by omega) (by omega) (by omega)

end Answers

/-! ## Responses -/

section Response
variable {r : Response} {mem : Nat → UInt8} {outIp : Nat → UInt8} {fuel : Nat}

theorem Response.length_header (r : Response) : r.header.length = 12 := rfl

theorem Response.length_wire (r : Response) : r.wire.length
    = 12 + r.question.length + (wireRecords r.answers).length + r.rest.length := by
  simp only [Response.wire, List.length_append, r.length_header, Nat.add_assoc]

/-- The answers of a response in memory. -/
theorem Response.answers_standAt (h : StandAt mem 0 r.wire) :
    StandAt mem (12 + r.question.length) (wireRecords r.answers) := by
  obtain ⟨-, hbody⟩ := standAt_append.mp h
  obtain ⟨-, hanswers⟩ := standAt_append.mp hbody
  rw [r.length_header, Nat.zero_add] at hanswers
  exact (standAt_append.mp hanswers).1

/-- A response reaches the loop over its answers. -/
theorem Response.parse (h : StandAt mem 0 r.wire) (hfuel : r.wire.length ≤ fuel) :
    (dnsParseResponse fuel r.wire.length r.id outIp).value mem
      = (findAddress r.wire.length fuel outIp r.answers.length
          (12 + r.question.length)).value mem := by
  have hwire := r.length_wire
  have hqlen : r.question.length = r.qname.wire.length + 4 := List.length_append
  obtain ⟨hhead, hbody⟩ := standAt_append.mp h
  obtain ⟨hquestion, -⟩ := standAt_append.mp hbody
  obtain ⟨hqname, -⟩ := standAt_append.mp hquestion
  rw [r.length_header, Nat.zero_add] at hqname
  have hskip : (skipQname r.wire.length fuel 12).value mem = some (12 + r.qname.wire.length) :=
    skipQname_name hqname (by omega) (by omega)
  simp only [Response.header, standAt_append, length_word16, standAt_cons] at hhead
  obtain ⟨hid, ⟨hflags, -⟩, -, hcount, -⟩ := hhead
  have hid : (mem 0).toNat * 256 + (mem (0 + 1)).toNat = r.id.toNat :=
    standAt_word16 hid r.id.toNat_lt
  have hcount : (mem 6).toNat * 256 + (mem (6 + 1)).toNat = r.answers.length :=
    standAt_word16 hcount r.few
  have hflags : ¬ mem 2 &&& 0x80 = 0 := by
    rw [show mem 2 = _ from hflags]
    exact response_bit r.flags
  rw [dnsParseResponse, if_neg (by omega), value_bind, value_be16, Option.bind_some, hid,
    if_neg (not_not.mpr rfl), value_bind, value_byte, Option.bind_some, if_neg hflags, value_bind,
    value_be16, Option.bind_some, hcount, Int.toNat_natCast]
  by_cases hnone : r.answers.length = 0
  · rw [if_pos hnone, hnone]
    rfl
  · rw [if_neg hnone, value_bind, hskip, Option.bind_some, hqlen, Nat.add_assoc]

/-- A clean response is answered. -/
theorem Response.Clean.answered (hclean : r.Clean) : r.Answered := by
  intro mem outIp fuel h hfuel
  rw [Response.parse h hfuel]
  have hwire := r.length_wire
  exact findAddress_clean hclean (Response.answers_standAt h) (by omega) (by omega)

/-- In a response with a mixed name that leads past the end, no address is found. -/
theorem Response.Overruns.value (hover : r.Overruns) (h : StandAt mem 0 r.wire)
    (hfuel : r.wire.length ≤ fuel) :
    (dnsParseResponse fuel r.wire.length r.id outIp).value mem = some (0, outIp) := by
  obtain ⟨pre, a, post, hsplit, hpre, ha, hbehind⟩ := hover
  have hwire := r.length_wire
  have hanswers := Response.answers_standAt h
  rw [Response.parse h hfuel]
  rw [hsplit] at hwire hanswers ⊢
  apply findAddress_overrun hpre ha hanswers (by omega) _ (by omega)
  have hlen : (wireRecords (pre ++ a :: post)).length = (wireRecords pre).length
      + (a.name.wire.length + a.body.length + (wireRecords post).length) := by
    simp only [wireRecords, List.flatMap_append, List.flatMap_cons, List.length_append,
      Record.wire]
  have hname : a.name.wire.length = (wireLabels a.name.labels).length + 2 := by
    have hending : a.name.ending.wire.length = 2 := by
      cases he : a.name.ending with
      | root => exact absurd he ha.2
      | pointer target => rfl
    rw [Name.wire, List.length_append, hending]
  rw [List.length_append] at hbehind
  omega

end Response

/-- The parser answers every response in which no name up to the first address is labels and
then a pointer. Where such a name does come and its pointer, taken for a length, leads past
the end of the message, the parser is right only if there is no address at all. -/
theorem Response.answered_of_clean (r : Response) :
    (r.Clean → r.Answered) ∧ (r.Overruns → (r.Answered ↔ firstA r.answers = none)) := by
  refine ⟨Response.Clean.answered, ?_⟩
  intro hover
  constructor
  · intro hanswered
    obtain ⟨mem, h⟩ := exists_standAt r.wire
    obtain ⟨o, ho, hgives⟩ := hanswered mem (fun _ => 0) r.wire.length h (Nat.le_refl _)
    obtain rfl := Option.some.inj ((hover.value h (Nat.le_refl _)).symm.trans ho)
    cases hfirst : firstA r.answers with
    | none => rfl
    | some a =>
        rw [hfirst] at hgives
        exact absurd hgives.1 (by decide)
  · intro hnone mem outIp fuel h hfuel
    rw [hnone]
    exact ⟨_, hover.value h hfuel, rfl⟩

/-- The response to a question for `w.a`: `w.a` is an alias of `b.a`, whose address is
9.8.7.6. The first name points to the question, the second is `b` and a pointer to the `a`
of the question. -/
def aliasResponse : Response where
  id := 7
  flags := ⟨1, by decide⟩
  flags' := 0x80
  qname := ⟨[⟨[119], by decide, by decide⟩, ⟨[97], by decide, by decide⟩], .root⟩
  qtype := 1
  qclass := 1
  answers :=
    [{ name := ⟨[], .pointer 12⟩, type := 5, cls := 1, ttl := 60
       data := [1, 98, 0xC0, 14], short := by decide, address := by decide },
     { name := ⟨[⟨[98], by decide, by decide⟩], .pointer 14⟩, type := 1, cls := 1, ttl := 60
       data := [9, 8, 7, 6], short := by decide, address := by decide }]
  few := by decide
  nscount := 0
  arcount := 0
  rest := []

theorem aliasResponse_overruns : aliasResponse.Overruns := by
  refine ⟨_, _, [], (List.singleton_append).symm, ?_, ⟨List.cons_ne_nil _ _, ?_⟩, by decide⟩
  · intro b hb
    obtain rfl := List.mem_singleton.mp hb
    exact ⟨by decide, fun h => h.1 rfl⟩
  · intro hroot
    cases hroot

/-- The address behind a name of labels and then a pointer is not found. -/
theorem not_every_response_answered : ¬ ∀ r : Response, r.Answered := by
  intro h
  obtain ⟨mem, hmem⟩ := exists_standAt aliasResponse.wire
  obtain ⟨o, ho, hgives⟩ := h aliasResponse mem (fun _ => 0) _ hmem (Nat.le_refl _)
  obtain rfl := Option.some.inj ((aliasResponse_overruns.value hmem (Nat.le_refl _)).symm.trans ho)
  exact absurd hgives.1 (by decide)

end OriaOS.Dns
