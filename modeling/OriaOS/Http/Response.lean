import OriaOS.Lib.Decimal

/-!
# Responses

A response with status 200 as it goes over the wire: a status line and fields up to the first
empty line, and behind it the body as it is, or in chunks.
-/

namespace OriaOS.Http

open OriaOS.Lib

abbrev Bytes := List UInt8

def space : UInt8 := 0x20
def tab : UInt8 := 0x09
def lf : UInt8 := 0x0A
def cr : UInt8 := 0x0D

/-- The end of a line. -/
def crlf : Bytes := [cr, lf]

/-- The end of the head. -/
def crlf2 : Bytes := [cr, lf, cr, lf]

def text (s : String) : Bytes := s.toList.map fun c => UInt8.ofNat c.toNat

/-- What the body phase of `http_get` prints of a body. -/
def printable (c : UInt8) : Bool := space ≤ c || c = lf || c = tab

/-- Some text on one line. -/
def IsText (l : Bytes) : Prop := ∀ c ∈ l, space ≤ c ∨ c = tab

instance (l : Bytes) : Decidable (IsText l) :=
  List.decidableBAll (fun c => space ≤ c ∨ c = tab) l

/-! ## Transfer codings -/

def hexDigit (c : UInt8) : Option Nat :=
  if 0x30 ≤ c ∧ c ≤ 0x39 then some (c.toNat - 0x30)
  else if 0x61 ≤ c ∧ c ≤ 0x66 then some (c.toNat - 0x61 + 10)
  else if 0x41 ≤ c ∧ c ≤ 0x46 then some (c.toNat - 0x41 + 10)
  else none

/-- The number some hexadecimal digits stand for. -/
def hexValue (l : Bytes) : Option Nat :=
  if l = [] then none else l.foldlM (fun v c => (hexDigit c).map (16 * v + ·)) 0

/-- What may follow the size of a chunk on its line. -/
structure Ext where
  bytes : Bytes
  isText : IsText bytes
  start : ∀ c, bytes.head? = some c → hexDigit c = none

/-- A chunk with its size line. -/
structure Chunk where
  size : Bytes
  ext : Ext
  data : Bytes
  nonempty : data ≠ []
  isSize : hexValue size = some data.length

def Chunk.wire (c : Chunk) : Bytes := c.size ++ c.ext.bytes ++ crlf ++ c.data ++ crlf

/-- A body in chunks, with the chunk of size zero and the trailer. -/
structure Chunked where
  chunks : List Chunk
  last : Bytes
  lastExt : Ext
  trailer : List Bytes
  isLast : hexValue last = some 0
  trailerText : ∀ l ∈ trailer, l ≠ [] ∧ IsText l

def Chunked.wire (b : Chunked) : Bytes :=
  b.chunks.flatMap Chunk.wire ++
    (b.last ++ b.lastExt.bytes ++ crlf ++ (b.trailer.flatMap (· ++ crlf) ++ crlf))

inductive Coding
  | identity (body : Bytes)
  | chunked (body : Chunked)

/-- The bytes behind the head. -/
def Coding.payload : Coding → Bytes
  | .identity body => body
  | .chunked body => body.wire

/-- The entity body. -/
def Coding.entity : Coding → Bytes
  | .identity body => body
  | .chunked body => body.chunks.flatMap (·.data)

def Coding.isChunked : Coding → Bool
  | .identity _ => false
  | .chunked _ => true

/-! ## Responses -/

def toLower (c : UInt8) : UInt8 := if 0x41 ≤ c ∧ c ≤ 0x5A then c + 32 else c

/-- A field that announces chunks. -/
def declaresChunked (field : Bytes) : Bool :=
  (text "transfer-encoding:").isPrefixOf (field.map toLower) &&
    (text "chunked").isSuffixOf (field.map toLower)

/-- A well-formed response with status 200 and a printable body. -/
structure Response where
  minor : UInt8
  reason : Bytes
  fields : List Bytes
  coding : Coding
  isDigit : Decimal.isDigit minor = true
  reasonText : IsText reason
  reasonStart : ∀ c, reason.head? = some c → c = space
  fieldsText : ∀ l ∈ fields, l ≠ [] ∧ IsText l
  declared : coding.isChunked = fields.any declaresChunked
  entityPrintable : ∀ c ∈ coding.entity, printable c = true

namespace Response

def statusLine (r : Response) : Bytes := text "HTTP/1." ++ r.minor :: (text " 200" ++ r.reason)

/-- The head with its empty line. -/
def head (r : Response) : Bytes := (r.statusLine :: r.fields).flatMap (· ++ crlf) ++ crlf

def wire (r : Response) : Bytes := r.head ++ r.coding.payload

end Response

/-! ## The end of the head -/

/-- The empty line is at the end, and nowhere before. -/
structure EndsFirst (head : Bytes) : Prop where
  ends : crlf2 <:+ head
  first : ∀ q t, head = q ++ (crlf2 ++ t) → t = []

section Lines
variable {l q t : Bytes} {ls : List Bytes}

theorem IsText.ne_cr (h : IsText l) : ∀ c ∈ l, c ≠ cr := by
  rintro c hc rfl
  exact absurd (h cr hc) (by decide)

theorem IsText.ne_zero (h : IsText l) : ∀ c ∈ l, c ≠ 0 := by
  rintro c hc rfl
  exact absurd (h 0 hc) (by decide)

/-- Behind the end of a line there is an empty line only at the end of the lines. -/
theorem rest_of_crlf (hls : ∀ l ∈ ls, l ≠ [] ∧ IsText l)
    (h : ls.flatMap (· ++ crlf) ++ crlf = crlf ++ t) : t = [] := by
  cases ls with
  | nil => exact List.append_right_eq_self.mp h.symm
  | cons l ls =>
      obtain ⟨hne, htext⟩ := hls l List.mem_cons_self
      obtain ⟨c, l, rfl⟩ := List.exists_cons_of_ne_nil hne
      have hc : c = cr := by
        simp only [List.flatMap_cons, List.cons_append] at h
        exact (List.cons.inj h).1
      exact absurd hc (htext.ne_cr c List.mem_cons_self)

/-- The head ends with its first empty line. -/
theorem endsFirst_lines (hls : ∀ l ∈ ls, l ≠ [] ∧ IsText l) (hne : ls ≠ []) :
    EndsFirst (ls.flatMap (· ++ crlf) ++ crlf) := by
  constructor
  · obtain ⟨init, l, rfl⟩ := (List.eq_nil_or_concat' ls).resolve_left hne
    refine ⟨init.flatMap (· ++ crlf) ++ l, ?_⟩
    simp [crlf, crlf2]
  · clear hne
    intro q t h
    induction ls generalizing q with
    | nil =>
        have hlen := congrArg List.length h
        simp [crlf, crlf2] at hlen
        omega
    | cons l ls ih =>
        obtain ⟨⟨-, htext⟩, hrest⟩ := List.forall_mem_cons.mp hls
        rw [List.flatMap_cons, List.append_assoc, List.append_assoc] at h
        rcases List.append_eq_append_iff.mp h with ⟨x, rfl, hx⟩ | ⟨x, rfl, hx⟩
        · match x with
          | [] => exact rest_of_crlf hrest (List.append_cancel_left hx)
          | [c] => exact absurd (List.cons.inj (List.cons.inj hx).2).1 (by decide)
          | c :: d :: x => exact ih hrest x (List.cons.inj (List.cons.inj hx).2).2
        · match x with
          | [] =>
              have hx : crlf ++ (crlf ++ t) = crlf ++ (ls.flatMap (· ++ crlf) ++ crlf) := hx
              exact rest_of_crlf hrest (List.append_cancel_left hx).symm
          | c :: x =>
              have hc : cr = c := (List.cons.inj hx).1
              exact absurd hc.symm (htext.ne_cr c (by simp))

theorem crlf_ne_zero : ∀ c ∈ crlf, c ≠ 0 := by simp [crlf, cr, lf]

/-- Text and line ends have no zeros. -/
theorem lines_ne_zero (hls : ∀ l ∈ ls, l ≠ [] ∧ IsText l) :
    ∀ c ∈ ls.flatMap (· ++ crlf) ++ crlf, c ≠ 0 := by
  intro c hc
  rcases List.mem_append.mp hc with hc | hc
  · obtain ⟨l, hl, hc⟩ := List.mem_flatMap.mp hc
    rcases List.mem_append.mp hc with hc | hc
    · exact (hls l hl).2.ne_zero c hc
    · exact crlf_ne_zero c hc
  · exact crlf_ne_zero c hc

end Lines

namespace Response
variable (r : Response)

theorem lines_isText : ∀ l ∈ r.statusLine :: r.fields, l ≠ [] ∧ IsText l := by
  rw [List.forall_mem_cons]
  refine ⟨⟨by simp [statusLine], ?_⟩, r.fieldsText⟩
  intro c hc
  have hminor : space ≤ r.minor := by
    have h := r.isDigit
    simp only [Decimal.isDigit, Bool.and_eq_true, decide_eq_true_eq] at h
    exact UInt8.le_trans (by decide) h.1
  have hversion : IsText (text "HTTP/1.") := by decide
  have hcode : IsText (text " 200") := by decide
  simp only [statusLine, List.mem_append, List.mem_cons] at hc
  rcases hc with hc | rfl | hc | hc
  · exact hversion c hc
  · exact Or.inl hminor
  · exact hcode c hc
  · exact r.reasonText c hc

theorem endsFirst : EndsFirst r.head :=
  endsFirst_lines r.lines_isText (List.cons_ne_nil _ _)

theorem head_ne_nil : r.head ≠ [] := by
  obtain ⟨q, hq⟩ := r.endsFirst.ends
  rw [← hq]
  simp [crlf2]

theorem head_ne_zero : ∀ c ∈ r.head, c ≠ 0 := lines_ne_zero r.lines_isText

end Response

/-! ## The payload -/

section Payload
variable {l : Bytes}

theorem printable_ne_zero {c : UInt8} (h : printable c = true) : c ≠ 0 := by
  rintro rfl
  exact absurd h (by decide)

/-- The digits of a size. -/
theorem isHex_of_hexValue {n : Nat} (h : hexValue l = some n) :
    l ≠ [] ∧ ∀ c ∈ l, (hexDigit c).isSome := by
  rw [hexValue] at h
  split at h
  · cases h
  · refine ⟨‹_›, ?_⟩
    clear * - h
    generalize hzero : (0 : Nat) = v at h
    clear hzero
    induction l generalizing v with
    | nil => exact nofun
    | cons c l ih =>
        rw [List.foldlM_cons] at h
        obtain ⟨v', hv', hrest⟩ := Option.bind_eq_some_iff.mp h
        rw [List.forall_mem_cons]
        refine ⟨?_, ih _ hrest⟩
        obtain ⟨d, hd, -⟩ := Option.map_eq_some_iff.mp hv'
        rw [hd]
        rfl

/-- A digit is printable. -/
theorem printable_of_isHex {c : UInt8} (h : (hexDigit c).isSome) : printable c = true := by
  have hle : space ≤ c := by
    have hdigit : space ≤ 0x30 := by decide
    have hlower : space ≤ 0x61 := by decide
    have hupper : space ≤ 0x41 := by decide
    rw [hexDigit] at h
    split at h
    · exact UInt8.le_trans hdigit ‹_ ∧ _›.1
    · split at h
      · exact UInt8.le_trans hlower ‹_ ∧ _›.1
      · split at h
        · exact UInt8.le_trans hupper ‹_ ∧ _›.1
        · cases h
  simp [printable, hle]

/-- More is printed of a body in chunks than its entity. -/
theorem Chunked.length_printed (b : Chunked)
    (hb : ∀ c ∈ b.chunks.flatMap (·.data), printable c = true) :
    (b.chunks.flatMap (·.data)).length < (b.wire.filter printable).length := by
  have hchunks : (b.chunks.flatMap (·.data)).length
      ≤ ((b.chunks.flatMap Chunk.wire).filter printable).length := by
    generalize b.chunks = cs at hb ⊢
    induction cs with
    | nil => exact Nat.zero_le _
    | cons c cs ih =>
        rw [List.flatMap_cons, List.forall_mem_append] at hb
        have hdata : (c.data.filter printable) = c.data := List.filter_eq_self.mpr hb.1
        have := ih hb.2
        simp only [List.flatMap_cons, List.filter_append, List.length_append, Chunk.wire, hdata]
        omega
  have hlast : 0 < (b.last.filter printable).length := by
    obtain ⟨hne, hhex⟩ := isHex_of_hexValue b.isLast
    rw [List.filter_eq_self.mpr fun c hc => printable_of_isHex (hhex c hc)]
    exact List.length_pos_of_ne_nil hne
  simp only [Chunked.wire, List.filter_append, List.length_append]
  omega

/-- A body in chunks has no zeros. -/
theorem Chunked.wire_ne_zero (b : Chunked)
    (hb : ∀ c ∈ b.chunks.flatMap (·.data), printable c = true) : ∀ c ∈ b.wire, c ≠ 0 := by
  have hsize : ∀ {l n}, hexValue l = some n → ∀ c ∈ l, c ≠ 0 :=
    fun h c hc => printable_ne_zero (printable_of_isHex ((isHex_of_hexValue h).2 c hc))
  have hchunks : ∀ c ∈ b.chunks.flatMap Chunk.wire, c ≠ 0 := by
    intro c hc
    obtain ⟨k, hk, hc⟩ := List.mem_flatMap.mp hc
    have hdata : ∀ c ∈ k.data, c ≠ 0 :=
      fun c hc => printable_ne_zero (hb c (List.mem_flatMap.mpr ⟨k, hk, hc⟩))
    simp only [Chunk.wire, List.mem_append] at hc
    rcases hc with (((hc | hc) | hc) | hc) | hc
    · exact hsize k.isSize c hc
    · exact k.ext.isText.ne_zero c hc
    · exact crlf_ne_zero c hc
    · exact hdata c hc
    · exact crlf_ne_zero c hc
  intro c hc
  rw [Chunked.wire] at hc
  rcases List.mem_append.mp hc with hc | hc
  · exact hchunks c hc
  rcases List.mem_append.mp hc with hc | hc
  · rcases List.mem_append.mp hc with hc | hc
    · rcases List.mem_append.mp hc with hc | hc
      · exact hsize b.isLast c hc
      · exact b.lastExt.isText.ne_zero c hc
    · exact crlf_ne_zero c hc
  · exact lines_ne_zero b.trailerText c hc

theorem Response.payload_ne_zero (r : Response) : ∀ c ∈ r.coding.payload, c ≠ 0 := by
  have hentity := r.entityPrintable
  cases hcoding : r.coding with
  | identity body =>
      rw [hcoding] at hentity
      exact fun c hc => printable_ne_zero (hentity c hc)
  | chunked body =>
      rw [hcoding] at hentity
      exact body.wire_ne_zero hentity

end Payload

end OriaOS.Http
