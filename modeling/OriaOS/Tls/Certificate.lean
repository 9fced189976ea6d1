import OriaOS.Lib.Der
import OriaOS.Tls.Messages
import OriaOS.Tls.X509

/-!
# Encoded certificates

A certificate as its fields, its encoding, and what the parser reads of the encoding. Each
primitive has one lemma: where the memory has an encoded element, it accepts it and
returns its content.
-/

namespace OriaOS.Tls

open OriaOS.Lib

variable {bs : Bytes} {san : List Bytes} {fuel n : Nat}

/-! ## Elements -/

section Element
variable {d : Mem} {pos dlen : Nat}

theorem Holds.head {b : UInt8} {bs : Bytes} (h : Holds d pos (b :: bs)) : d pos = b :=
  h 0 (Nat.zero_lt_succ _)

theorem Holds.tail {b : UInt8} (h : Holds d pos (b :: bs)) : Holds d (pos + 1) bs := by
  have hcons : Holds d pos ([b] ++ bs) := h
  simpa using hcons.right

theorem slice_of_holds (h : Holds d pos bs) (hn : n ≤ bs.length) : slice d pos n = bs.take n := by
  apply List.ext_getElem
  · simp [slice, hn]
  · intro i hi hi'
    have hlt : i < bs.length := by
      rw [List.length_take] at hi'
      omega
    simpa [slice] using h i hlt

theorem longLength_of_holds (h : Holds d pos bs) : longLength d pos bs.length = Der.value bs := by
  have hslice : slice d pos bs.length = bs := by
    rw [slice_of_holds h (le_refl _), List.take_length]
  conv_rhs => rw [← hslice]
  rw [longLength, Der.value, slice, List.foldl_map]

/-- An encoded length is read back, and refused if it is negative for the callers. -/
theorem asn1Length_encoded (h : Holds d pos (Der.lengthBytes n))
    (hend : pos + (Der.lengthBytes n).length ≤ dlen) (hn : n < 4294967296) :
    asn1Length d pos dlen =
      (if n < 2147483648 then some n else none, pos + (Der.lengthBytes n).length) := by
  rw [Der.lengthBytes] at h hend ⊢
  split at h
  next hshort =>
    rw [if_pos hshort] at hend ⊢
    rw [List.length_singleton] at hend ⊢
    have hb : (d pos).toNat = n := by
      rw [h.head, UInt8.toNat_ofNat']
      omega
    simp only [asn1Length, hb]
    rw [if_neg (by omega), if_pos (by omega), if_pos (by omega)]
  next hlong =>
    rw [if_neg hlong] at hend ⊢
    rw [List.length_cons] at hend ⊢
    have hle : (Der.digits n).length ≤ 4 := Der.length_digits_le (by omega)
    have hpos : 0 < (Der.digits n).length := Der.length_digits_pos (by omega)
    have hb : (d pos).toNat = 128 + (Der.digits n).length := by
      rw [h.head, UInt8.toNat_ofNat']
      omega
    have hvalue : longLength d (pos + 1) (Der.digits n).length = n := by
      rw [longLength_of_holds h.tail, Der.value_digits]
    simp only [asn1Length, hb, Nat.add_sub_cancel_left, hvalue]
    rw [if_neg (by omega), if_neg (by omega), if_neg (by omega), if_neg (by omega)]
    congr 1
    omega

theorem asn1Length_of_holds (h : Holds d pos (Der.lengthBytes n))
    (hend : pos + (Der.lengthBytes n).length ≤ dlen) (hn : n < 2147483648) :
    asn1Length d pos dlen = (some n, pos + (Der.lengthBytes n).length) := by
  rw [asn1Length_encoded h hend (by omega), if_pos hn]

variable {tag : UInt8} {body : Bytes}

theorem Holds.content (h : Holds d pos (Der.tlv tag body)) :
    Holds d (pos + Der.header body) body := by
  have hright : Holds d _ body := Holds.right h
  simpa [Der.header, Nat.add_comm] using hright

/-- The header of an encoded element. -/
theorem asn1Length_tlv (h : Holds d pos (Der.tlv tag body))
    (hend : pos + (Der.tlv tag body).length ≤ dlen) (hn : body.length < 2147483648) :
    asn1Length d (pos + 1) dlen = (some body.length, pos + Der.header body) := by
  rw [Der.length_tlv, Der.header] at hend
  rw [asn1Length_of_holds (Holds.left (Holds.tail h)) (by omega) hn, Der.header, Nat.add_assoc]

theorem asn1Enter_tlv (h : Holds d pos (Der.tlv tag body))
    (hend : pos + (Der.tlv tag body).length ≤ dlen) (hn : body.length < 2147483648) :
    asn1Enter d pos dlen tag = some (body.length, pos + Der.header body) := by
  have hlen := Der.length_tlv tag body
  have htwo := Der.two_le_header body
  rw [asn1Enter, if_neg (by omega), if_neg (by rw [Holds.head h]; exact not_not.mpr rfl),
    asn1Length_tlv h hend hn]
  exact if_neg (by omega)

/-- An element that is too long is not entered. -/
theorem asn1Enter_long (h : Holds d pos (Der.tlv tag body))
    (hend : pos + (Der.tlv tag body).length ≤ dlen) (hlong : 2147483648 ≤ body.length)
    (hn : body.length < 4294967296) : asn1Enter d pos dlen tag = none := by
  have hlen := Der.length_tlv tag body
  rw [Der.header] at hlen
  rw [asn1Enter, if_neg (by omega), if_neg (by rw [Holds.head h]; exact not_not.mpr rfl),
    asn1Length_encoded (Holds.left (Holds.tail h)) (by omega) hn, if_neg (by omega)]

theorem asn1Skip_tlv (h : Holds d pos (Der.tlv tag body))
    (hend : pos + (Der.tlv tag body).length ≤ dlen) (hn : body.length < 2147483648) :
    asn1Skip d pos dlen = (true, pos + (Der.tlv tag body).length) := by
  have hlen := Der.length_tlv tag body
  have htwo := Der.two_le_header body
  rw [asn1Skip, if_neg (by omega), asn1Length_tlv h hend hn]
  simp only [Prod.mk.injEq, decide_eq_true_eq]
  omega

theorem asn1Peek_tlv (h : Holds d pos (Der.tlv tag body))
    (hend : pos + (Der.tlv tag body).length ≤ dlen) (hn : body.length < 2147483648) :
    asn1Peek d pos dlen = some (tag, body.length, Der.header body) := by
  have hlen := Der.length_tlv tag body
  have htwo := Der.two_le_header body
  rw [asn1Peek, if_neg (by omega), asn1Length_tlv h hend hn]
  simp only [Holds.head h, Nat.add_sub_cancel_left]
  exact if_neg (by omega)

/-- An identifier is read where it fits into the buffer. -/
theorem asn1ReadOid_tlv {buflen : Nat} (h : Holds d pos (Der.tlv asn1Oid body))
    (hend : pos + (Der.tlv asn1Oid body).length ≤ dlen) (hn : body.length < 2147483648) :
    asn1ReadOid d pos dlen buflen =
      if buflen < body.length then (none, pos + Der.header body)
      else (some body, pos + (Der.tlv asn1Oid body).length) := by
  have hlen := Der.length_tlv asn1Oid body
  have htwo := Der.two_le_header body
  rw [asn1ReadOid, if_neg (by omega), if_neg (by rw [Holds.head h]; exact not_not.mpr rfl),
    asn1Length_tlv h hend hn]
  simp only [slice_of_holds h.content (le_refl _), List.take_length]
  by_cases hfits : buflen < body.length
  · rw [if_pos hfits, if_pos (Or.inl hfits)]
  · rw [if_neg hfits, if_neg (by omega), hlen, Nat.add_assoc]

/-- A string is read where its type is one of those known. -/
theorem asn1ReadString_tlv {buflen : Nat} (h : Holds d pos (Der.tlv tag body))
    (hend : pos + (Der.tlv tag body).length ≤ dlen) (hn : body.length < 2147483648) :
    asn1ReadString d pos dlen buflen =
      if tag ∈ stringTags then some (body.take (buflen - 1)) else none := by
  have hlen := Der.length_tlv tag body
  have htwo := Der.two_le_header body
  rw [asn1ReadString, if_neg (by omega), Holds.head h]
  by_cases htag : tag ∈ stringTags
  · rw [if_neg (not_not.mpr htag), if_pos htag, asn1Length_tlv h hend hn]
    simp only
    rw [if_neg (by omega), slice_of_holds h.content (Nat.min_le_left _ _), Nat.min_comm,
      ← List.take_take, List.take_length]
  · rw [if_pos htag, if_neg htag]

end Element

/-! ## Names -/

/-- An attribute of a name: its type, and its value with the tag of it. -/
structure Attribute where
  oid : Bytes
  tag : UInt8
  value : Bytes

namespace Attribute

/-- The content of the sequence of an attribute. -/
def fields (a : Attribute) : Bytes := Der.tlv asn1Oid a.oid ++ Der.tlv a.tag a.value

def encode (a : Attribute) : Bytes := Der.tlv asn1Sequence a.fields

/-- What the parser stores of the value. -/
def stored (a : Attribute) : Bytes := if a.tag ∈ stringTags then a.value.take 127 else []

theorem length_fields (a : Attribute) :
    a.fields.length = (Der.tlv asn1Oid a.oid).length + (Der.tlv a.tag a.value).length :=
  List.length_append

end Attribute

/-- The relative names of a name, each a set of attributes. -/
abbrev Name := List (List Attribute)

def encodeSet (attrs : List Attribute) : Bytes := Der.tlv asn1Set (attrs.flatMap Attribute.encode)

def encodeName (name : Name) : Bytes := Der.tlv asn1Sequence (name.flatMap encodeSet)

/-- The first common name. -/
def commonName (name : Name) : Option Attribute := name.flatten.find? (·.oid = oidCn)

section Name
variable {d : Mem} {pos : Nat}

/-- The identifier of an attribute is the one asked for exactly if it is read as that. -/
theorem readOid_fields {a : Attribute} (h : Holds d pos a.fields)
    (hlen : a.fields.length < 2147483648) {oid : Bytes} (hoid : oid.length ≤ 16) :
    (asn1ReadOid d pos (pos + a.fields.length) 16).1 = some oid ↔ a.oid = oid := by
  have hfields := a.length_fields
  have htlv := Der.length_tlv asn1Oid a.oid
  rw [asn1ReadOid_tlv h.left (by omega) (by omega)]
  by_cases hlong : 16 < a.oid.length
  · rw [if_pos hlong]
    simp only [reduceCtorEq, false_iff]
    rintro rfl
    omega
  · rw [if_neg hlong, Option.some.injEq]

/-- The value of an attribute with a short identifier. -/
theorem readString_fields {a : Attribute} (h : Holds d pos a.fields)
    (hlen : a.fields.length < 2147483648) (hoid : a.oid.length ≤ 16) :
    (asn1ReadString d (asn1ReadOid d pos (pos + a.fields.length) 16).2 (pos + a.fields.length)
      128).getD [] = a.stored := by
  have hfields := a.length_fields
  have htlv := Der.length_tlv asn1Oid a.oid
  have hvalue := Der.length_tlv a.tag a.value
  rw [asn1ReadOid_tlv h.left (by omega) (by omega), if_neg (by omega)]
  rw [asn1ReadString_tlv h.right (by omega) (by omega), Attribute.stored]
  split <;> rfl

/-- The inner loop finds the first common name of a set. -/
theorem attributeLoop_encode {attrs : List Attribute}
    (h : Holds d pos (attrs.flatMap Attribute.encode))
    (hlen : (attrs.flatMap Attribute.encode).length < 2147483648)
    (hfuel : (attrs.flatMap Attribute.encode).length ≤ fuel) :
    attributeLoop d (pos + (attrs.flatMap Attribute.encode).length) fuel pos =
      (attrs.find? (·.oid = oidCn)).map Attribute.stored := by
  induction attrs generalizing pos fuel with
  | nil =>
      cases fuel with
      | zero => rfl
      | succ fuel =>
          rw [attributeLoop, if_neg (by simp)]
          rfl
  | cons a attrs ih =>
      rw [List.flatMap_cons] at h hlen hfuel ⊢
      have hsum := @List.length_append _ a.encode (attrs.flatMap Attribute.encode)
      have htlv : a.encode.length = _ := Der.length_tlv asn1Sequence a.fields
      have htwo := Der.two_le_header a.fields
      have hcontent : Holds d (pos + Der.header a.fields) a.fields := Holds.content h.left
      cases fuel with
      | zero => omega
      | succ fuel =>
          rw [attributeLoop, if_pos (by omega),
            asn1Peek_tlv (show Holds d pos (Der.tlv asn1Sequence a.fields) from h.left)
              (by rw [← Attribute.encode]; omega) (by omega)]
          simp only [if_true]
          by_cases hoid : a.oid = oidCn
          · rw [if_pos ((readOid_fields hcontent (by omega) (by decide)).mpr hoid),
              readString_fields hcontent (by omega) (by rw [hoid]; decide),
              List.find?_cons_of_pos (by simpa using hoid), Option.map_some]
          · rw [if_neg (mt (readOid_fields hcontent (by omega) (by decide)).mp hoid),
              List.find?_cons_of_neg (by simpa using hoid)]
            have hnext : pos + Der.header a.fields + a.fields.length = pos + a.encode.length := by
              omega
            rw [hnext, hsum, ← Nat.add_assoc, ih h.right (by omega) (by omega)]

/-- The outer loop finds the first common name of a name. -/
theorem nameLoop_encode {name : Name} (h : Holds d pos (name.flatMap encodeSet))
    (hlen : (name.flatMap encodeSet).length < 2147483648)
    (hfuel : (name.flatMap encodeSet).length ≤ fuel) :
    nameLoop d (pos + (name.flatMap encodeSet).length) fuel pos =
      ((commonName name).map Attribute.stored).getD [] := by
  induction name generalizing pos fuel with
  | nil =>
      cases fuel with
      | zero => rfl
      | succ fuel =>
          rw [nameLoop, if_neg (by simp)]
          rfl
  | cons attrs name ih =>
      rw [List.flatMap_cons] at h hlen hfuel ⊢
      have hsum := @List.length_append _ (encodeSet attrs) (name.flatMap encodeSet)
      have htlv : (encodeSet attrs).length = _ :=
        Der.length_tlv asn1Set (attrs.flatMap Attribute.encode)
      have htwo := Der.two_le_header (attrs.flatMap Attribute.encode)
      cases fuel with
      | zero => omega
      | succ fuel =>
          rw [nameLoop, if_pos (by omega),
            asn1Peek_tlv (show Holds d pos (Der.tlv asn1Set _) from h.left)
              (by rw [← encodeSet]; omega) (by omega)]
          simp only [if_true]
          rw [attributeLoop_encode (Holds.content h.left) (by omega) (by omega), commonName,
            List.flatten_cons, List.find?_append]
          cases attrs.find? (·.oid = oidCn) with
          | some a => rfl
          | none =>
              have hnext : pos + Der.header (attrs.flatMap Attribute.encode) +
                  (attrs.flatMap Attribute.encode).length = pos + (encodeSet attrs).length := by
                omega
              simp only [Option.map_none, Option.none_or]
              rw [hnext, hsum, ← Nat.add_assoc, ih h.right (by omega) (by omega), commonName]

/-- A name is read. -/
theorem parseName_encode {name : Name} {tbsEnd : Nat} (h : Holds d pos (encodeName name))
    (hend : pos + (encodeName name).length ≤ tbsEnd)
    (hlen : (encodeName name).length < 2147483648) :
    parseName d pos tbsEnd =
      some (((commonName name).map Attribute.stored).getD [], pos + (encodeName name).length) := by
  have htlv : (encodeName name).length = _ := Der.length_tlv asn1Sequence (name.flatMap encodeSet)
  rw [parseName, asn1Peek_tlv (show Holds d pos (Der.tlv asn1Sequence _) from h)
    (by rw [← encodeName]; omega) (by omega)]
  simp only [ne_eq, not_true_eq_false, if_false, parseNameCn]
  rw [nameLoop_encode (Holds.content h) (by omega) (by omega), htlv, Nat.add_assoc]

end Name

/-! ## Extensions -/

/-- A general name: its tag and content. -/
structure GeneralName where
  tag : UInt8
  content : Bytes

def GeneralName.encode (n : GeneralName) : Bytes := Der.tlv n.tag n.content

/-- The contents of the `dNSName` entries, whose tag is `[2]`. -/
def dnsEntries (names : List GeneralName) : List Bytes :=
  (names.filter (·.tag = 0x82)).map GeneralName.content

/-- An extension: the alternative names, or one with another identifier. -/
inductive Extension where
  | altNames (critical : Bool) (names : List GeneralName)
  | other (oid : Bytes) (critical : Bool) (value : Bytes) (ne : oid ≠ oidSan)

/-- The flag of an extension, left out where it has its default. -/
def encodeCritical (critical : Bool) : Bytes := if critical then Der.tlv 0x01 [0xFF] else []

/-- The content of the sequence of an extension. -/
def extensionFields (oid : Bytes) (critical : Bool) (value : Bytes) : Bytes :=
  Der.tlv asn1Oid oid ++ (encodeCritical critical ++ Der.tlv asn1OctetString value)

namespace Extension

def fields : Extension → Bytes
  | altNames critical names =>
      extensionFields oidSan critical (Der.tlv asn1Sequence (names.flatMap GeneralName.encode))
  | other oid critical value _ => extensionFields oid critical value

def encode (e : Extension) : Bytes := Der.tlv asn1Sequence e.fields

/-- The `dNSName` entries of an extension. -/
def dnsNames : Extension → List Bytes
  | altNames _ names => dnsEntries names
  | other .. => []

end Extension

/-- The array of the names, and what is written to it behind those that it has. -/
def keepNames (san entries : List Bytes) : List Bytes := (san ++ entries.map (·.take 127)).take 4

theorem keepNames_append (san entries entries' : List Bytes) :
    keepNames (keepNames san entries) entries' = keepNames san (entries ++ entries') := by
  have htake : ∀ xs ys : List Bytes, (xs.take 4 ++ ys).take 4 = (xs ++ ys).take 4 := by
    intro xs ys
    rw [List.take_append, List.take_append, List.take_take, List.length_take, min_self]
    congr 2
    omega
  rw [keepNames, keepNames, htake, keepNames, List.map_append, List.append_assoc]

section Extensions
variable {d : Mem} {pos : Nat}

/-- The loop keeps the entries up to the fourth. -/
theorem sanLoop_encode {names : List GeneralName} {len : Nat}
    (h : Holds d pos (names.flatMap GeneralName.encode))
    (hend : pos + (names.flatMap GeneralName.encode).length ≤ len)
    (hlen : (names.flatMap GeneralName.encode).length < 2147483648)
    (hfuel : (names.flatMap GeneralName.encode).length ≤ fuel) (hsan : san.length ≤ 4) :
    sanLoop d len (pos + (names.flatMap GeneralName.encode).length) fuel pos san =
      keepNames san (dnsEntries names) := by
  induction names generalizing pos fuel san with
  | nil =>
      have hkeep : keepNames san (dnsEntries []) = san := by
        simpa [keepNames, dnsEntries] using hsan
      rw [hkeep]
      cases fuel with
      | zero => rfl
      | succ fuel => rw [sanLoop, if_neg (by simp)]
  | cons n names ih =>
      rw [List.flatMap_cons] at h hend hlen hfuel ⊢
      have hsum := @List.length_append _ n.encode (names.flatMap GeneralName.encode)
      have htlv : n.encode.length = _ := Der.length_tlv n.tag n.content
      have htwo := Der.two_le_header n.content
      cases fuel with
      | zero => omega
      | succ fuel =>
          by_cases hfull : san.length < 4
          · have hhead : Holds d pos (Der.tlv n.tag n.content) := h.left
            have hnext : pos + Der.header n.content + n.content.length = pos + n.encode.length := by
              omega
            rw [sanLoop, if_pos ⟨by omega, hfull⟩, asn1Length_tlv hhead (by
              rw [← GeneralName.encode]; omega) (by omega), Holds.head hhead]
            simp only
            rw [hnext, hsum, ← Nat.add_assoc]
            by_cases htag : n.tag = 0x82
            · have hslice : slice d (pos + Der.header n.content) (min n.content.length 127) =
                  n.content.take 127 := by
                rw [slice_of_holds hhead.content (Nat.min_le_left _ _), Nat.min_comm,
                  ← List.take_take, List.take_length]
              rw [if_pos htag, hslice, ih h.right (by omega) (by omega) (by omega) (by
                rw [List.length_append, List.length_singleton]; omega)]
              simp [keepNames, dnsEntries, htag]
            · rw [if_neg htag, ih h.right (by omega) (by omega) (by omega) hsan]
              simp [dnsEntries, htag]
          · rw [sanLoop, if_neg (fun hboth => hfull hboth.2), keepNames, List.take_append,
              List.take_of_length_le hsan, show 4 - san.length = 0 by omega, List.take_zero,
              List.append_nil]

/-- The value of the extension is read. -/
theorem parseSan_encode {names : List GeneralName} {len : Nat}
    (h : Holds d 0 (Der.tlv asn1Sequence (names.flatMap GeneralName.encode)))
    (hend : (Der.tlv asn1Sequence (names.flatMap GeneralName.encode)).length ≤ len)
    (hlen : len < 2147483648) (hsan : san.length ≤ 4) :
    parseSan d len san = keepNames san (dnsEntries names) := by
  have htlv := Der.length_tlv asn1Sequence (names.flatMap GeneralName.encode)
  rw [parseSan, asn1Enter_tlv h (by omega) (by omega)]
  exact sanLoop_encode h.content (by omega) (by omega) (by omega) hsan

/-- An extension that is not the one looked for changes nothing. -/
theorem readExtension_of_ne {extEnd : Nat} (h : (asn1ReadOid d pos extEnd 16).1 ≠ some oidSan) :
    readExtension d pos extEnd san = san := by
  simp only [readExtension, h, if_false]
  refine ite_eq_right_iff.mpr fun _ => ?_
  split <;> rfl

/-- The flag is skipped where it is encoded. -/
theorem skip_critical {critical : Bool} {value : Bytes} {extEnd : Nat}
    (h : Holds d pos (encodeCritical critical ++ Der.tlv asn1OctetString value))
    (hend : pos + (encodeCritical critical ++ Der.tlv asn1OctetString value).length ≤ extEnd) :
    (if pos < extEnd ∧ d pos = 0x01 then asn1Skip d pos extEnd else (true, pos)) =
      (true, pos + (encodeCritical critical).length) := by
  rw [List.length_append] at hend
  cases critical with
  | true =>
      have hflag : Holds d pos (Der.tlv 0x01 [0xFF]) := h.left
      have hlen : (encodeCritical true).length = (Der.tlv 0x01 [0xFF]).length := rfl
      have htlv := Der.length_tlv 0x01 [0xFF]
      have htwo := Der.two_le_header [0xFF]
      rw [if_pos ⟨by omega, Holds.head hflag⟩, asn1Skip_tlv hflag (by omega) (by decide), hlen]
  | false =>
      have hvalue : Holds d pos (Der.tlv asn1OctetString value) := h
      rw [if_neg]
      · rfl
      · rintro ⟨-, hone⟩
        rw [Holds.head hvalue] at hone
        exact absurd hone (by decide)

/-- One extension is read. -/
theorem readExtension_encode {e : Extension} (h : Holds d pos e.fields)
    (hlen : e.fields.length < 2147483648) (hsan : san.length ≤ 4) :
    readExtension d pos (pos + e.fields.length) san = keepNames san e.dnsNames := by
  have hkeep : keepNames san [] = san := by simpa [keepNames] using hsan
  cases e with
  | other oid critical value ne =>
      rw [Extension.dnsNames, hkeep]
      apply readExtension_of_ne
      have hfields : (Extension.other oid critical value ne).fields =
        extensionFields oid critical value := rfl
      rw [hfields] at h hlen ⊢
      rw [extensionFields, List.length_append] at hlen
      have htlv := Der.length_tlv asn1Oid oid
      rw [extensionFields, asn1ReadOid_tlv h.left (by rw [List.length_append]; omega) (by omega)]
      split
      · simp
      · simpa using ne
  | altNames critical names =>
      have hfields : (Extension.altNames critical names).fields = Der.tlv asn1Oid oidSan ++
        (encodeCritical critical ++
          Der.tlv asn1OctetString (Der.tlv asn1Sequence (names.flatMap GeneralName.encode))) := rfl
      rw [hfields] at h hlen ⊢
      set value := Der.tlv asn1Sequence (names.flatMap GeneralName.encode) with hvalue
      have hoidLen := Der.length_tlv asn1Oid oidSan
      have hvalueLen := Der.length_tlv asn1OctetString value
      have htwo := Der.two_le_header value
      rw [List.length_append, List.length_append] at hlen ⊢
      have hoid : asn1ReadOid d pos (pos + ((Der.tlv asn1Oid oidSan).length +
          ((encodeCritical critical).length + (Der.tlv asn1OctetString value).length))) 16 =
          (some oidSan, pos + (Der.tlv asn1Oid oidSan).length) := by
        rw [asn1ReadOid_tlv h.left (by omega) (by omega), if_neg (by decide)]
      have hoctets : Holds d (pos + (Der.tlv asn1Oid oidSan).length +
          (encodeCritical critical).length) (Der.tlv asn1OctetString value) := h.right.right
      have hinner := hoctets.content
      simp only [readExtension, hoid]
      rw [skip_critical h.right (by rw [List.length_append]; omega)]
      simp only [true_and, if_true]
      rw [if_pos ⟨by omega, Holds.head hoctets⟩, asn1Length_tlv hoctets (by omega) (by omega)]
      refine parseSan_encode ?_ (le_refl _) (by omega) hsan
      intro i hi
      simpa using hinner i hi

/-- The list of extensions is read. -/
theorem extensionLoop_encode {es : List Extension} (h : Holds d pos (es.flatMap Extension.encode))
    (hlen : (es.flatMap Extension.encode).length < 2147483648)
    (hfuel : (es.flatMap Extension.encode).length ≤ fuel) (hsan : san.length ≤ 4) :
    extensionLoop d (pos + (es.flatMap Extension.encode).length) fuel pos san =
      keepNames san (es.flatMap Extension.dnsNames) := by
  induction es generalizing pos fuel san with
  | nil =>
      have hkeep : keepNames san [] = san := by simpa [keepNames] using hsan
      rw [List.flatMap_nil, List.flatMap_nil, hkeep]
      cases fuel with
      | zero => rfl
      | succ fuel => rw [extensionLoop, if_neg (by simp)]
  | cons e es ih =>
      rw [List.flatMap_cons] at h hlen hfuel ⊢
      have hsum := @List.length_append _ e.encode (es.flatMap Extension.encode)
      have htlv : e.encode.length = _ := Der.length_tlv asn1Sequence e.fields
      have htwo := Der.two_le_header e.fields
      have hhead : Holds d pos (Der.tlv asn1Sequence e.fields) := h.left
      have hnext : pos + Der.header e.fields + e.fields.length = pos + e.encode.length := by omega
      have hfour : (keepNames san e.dnsNames).length ≤ 4 := by
        rw [keepNames]
        exact List.length_take_le 4 _
      cases fuel with
      | zero => omega
      | succ fuel =>
          rw [extensionLoop, if_pos (by omega),
            asn1Enter_tlv hhead (by rw [← Extension.encode]; omega) (by omega)]
          simp only
          rw [readExtension_encode hhead.content (by omega) hsan, hnext, hsum, ← Nat.add_assoc,
            ih h.right (by omega) (by omega) hfour, keepNames_append, List.flatMap_cons]

end Extensions

/-! ## The certificate -/

/-- A certificate. The fields that the check does not look into, and what follows the part
that is signed, are any bytes. -/
structure Certificate where
  version : Option Bytes
  serial : Bytes
  algorithm : Bytes
  issuer : Name
  validity : Bytes
  subject : Name
  keyInfo : Bytes
  issuerUid : Option Bytes
  subjectUid : Option Bytes
  extensions : Option (List Extension)
  signature : Bytes

/-- A field that may be left out. -/
def encodeOptional (tag : UInt8) (field : Option Bytes) : Bytes :=
  (field.map (Der.tlv tag)).getD []

def encodeExtensions (es : List Extension) : Bytes :=
  Der.tlv asn1Sequence (es.flatMap Extension.encode)

namespace Certificate

/-- The fields behind the key. The unique identifiers have the tags `[1]` and `[2]` of
primitive elements. -/
def optionalFields (c : Certificate) : Bytes :=
  encodeOptional 0x81 c.issuerUid ++ (encodeOptional 0x82 c.subjectUid ++
    encodeOptional asn1Cont3 (c.extensions.map encodeExtensions))

/-- The part that is signed. -/
def signed (c : Certificate) : Bytes :=
  encodeOptional asn1Cont0 c.version ++ (Der.tlv asn1Integer c.serial ++
    (Der.tlv asn1Sequence c.algorithm ++ (encodeName c.issuer ++
      (Der.tlv asn1Sequence c.validity ++ (encodeName c.subject ++
        (Der.tlv asn1Sequence c.keyInfo ++ c.optionalFields))))))

def encode (c : Certificate) : Bytes :=
  Der.tlv asn1Sequence (Der.tlv asn1Sequence c.signed ++ c.signature)

/-- The `dNSName` entries. -/
def dnsNames (c : Certificate) : List Bytes := (c.extensions.getD []).flatMap Extension.dnsNames

end Certificate

section Parse
variable {d : Mem} {pos tbsEnd : Nat} {tag : UInt8} {body : Bytes}

theorem skipIf_tlv (h : Holds d pos (Der.tlv tag body))
    (hend : pos + (Der.tlv tag body).length ≤ tbsEnd) (hlen : body.length < 2147483648) :
    skipIf d pos tbsEnd tag = some (pos + (Der.tlv tag body).length) := by
  have htlv := Der.length_tlv tag body
  have htwo := Der.two_le_header body
  rw [skipIf, if_pos ⟨by omega, Holds.head h⟩, asn1Skip_tlv h hend hlen]

/-- A field that may be left out is skipped where another tag follows. -/
theorem skipIf_optional {field : Option Bytes} {other : UInt8}
    (h : Holds d pos (encodeOptional tag field ++ Der.tlv other body)) (hne : other ≠ tag)
    (hend : pos + (encodeOptional tag field).length ≤ tbsEnd)
    (hlen : (encodeOptional tag field).length < 2147483648) :
    skipIf d pos tbsEnd tag = some (pos + (encodeOptional tag field).length) := by
  cases field with
  | some content =>
      have htlv := Der.length_tlv tag content
      have hfield : encodeOptional tag (some content) = Der.tlv tag content := rfl
      rw [hfield] at h hend hlen ⊢
      exact skipIf_tlv h.left hend (by omega)
  | none =>
      have hnext : Holds d pos (Der.tlv other body) := h
      rw [skipIf, if_neg (fun hboth => hne ((Holds.head hnext).symm.trans hboth.2))]
      rfl

/-- The extensions are read where the parser looks for them. -/
theorem parseExtensions_encode {es : Option (List Extension)}
    (h : Holds d pos (encodeOptional asn1Cont3 (es.map encodeExtensions)))
    (hend : pos + (encodeOptional asn1Cont3 (es.map encodeExtensions)).length = tbsEnd)
    (hlen : (encodeOptional asn1Cont3 (es.map encodeExtensions)).length < 2147483648) :
    parseExtensions d pos tbsEnd = keepNames [] ((es.getD []).flatMap Extension.dnsNames) := by
  cases es with
  | none =>
      have hpos : pos = tbsEnd := hend
      rw [parseExtensions, if_neg (by omega)]
      rfl
  | some es =>
      have hfield : encodeOptional asn1Cont3 ((some es).map encodeExtensions) =
        Der.tlv asn1Cont3 (encodeExtensions es) := rfl
      rw [hfield] at h hend hlen
      have houter := Der.length_tlv asn1Cont3 (encodeExtensions es)
      have htwo := Der.two_le_header (encodeExtensions es)
      have hlist : (encodeExtensions es).length = _ :=
        Der.length_tlv asn1Sequence (es.flatMap Extension.encode)
      have hinner : Holds d (pos + Der.header (encodeExtensions es)) (Der.tlv asn1Sequence _) :=
        h.content
      rw [parseExtensions, if_pos ⟨by omega, Holds.head h⟩,
        asn1Length_tlv h (by omega) (by omega)]
      simp only
      rw [asn1Enter_tlv hinner (by rw [← encodeExtensions]) (by omega)]
      exact extensionLoop_encode hinner.content (by omega) (by omega) (by simp)

/-- No field with the tags looked for is there. -/
theorem skipUnique_of_head (h : pos < tbsEnd → d pos ≠ 0xA1 ∧ d pos ≠ 0xA2) (fuel : Nat) :
    skipUnique d tbsEnd fuel pos = pos := by
  cases fuel with
  | zero => rfl
  | succ fuel =>
      rw [skipUnique, if_neg]
      rintro ⟨hlt, htag | htag⟩
      · exact (h hlt).1 htag
      · exact (h hlt).2 htag

/-- The field of the key is passed. -/
theorem parseKey_tlv (h : Holds d pos (Der.tlv asn1Sequence body))
    (hend : pos + (Der.tlv asn1Sequence body).length ≤ tbsEnd) (hlen : body.length < 2147483648) :
    (parseKey d pos tbsEnd).2 = pos + (Der.tlv asn1Sequence body).length := by
  have htlv := Der.length_tlv asn1Sequence body
  rw [parseKey, asn1Peek_tlv h hend hlen]
  simp only [if_true]
  omega

/-- What follows the key does not start with the tags looked for. -/
theorem head_extensions {es : Option (List Extension)}
    (h : Holds d pos (encodeOptional asn1Cont3 (es.map encodeExtensions)))
    (hlt : 0 < (encodeOptional asn1Cont3 (es.map encodeExtensions)).length) :
    d pos ≠ 0xA1 ∧ d pos ≠ 0xA2 := by
  cases es with
  | none => exact absurd hlt (by simp [encodeOptional])
  | some es =>
      have hhead : Holds d pos (Der.tlv asn1Cont3 (encodeExtensions es)) := h
      rw [Holds.head hhead]
      decide

/-- A certificate that is encoded is accepted. It has the first common name of its subject
and, where it has no unique identifiers, its first four alternative names. -/
theorem x509Parse_encode {c : Certificate} (h : Holds d 0 c.encode)
    (hlen : (Der.tlv asn1Sequence c.signed ++ c.signature).length < 2147483648) :
    ∃ cert, x509Parse d c.encode.length = some cert ∧
      cert.subjectCn = ((commonName c.subject).map Attribute.stored).getD [] ∧
      (c.issuerUid = none → c.subjectUid = none → cert.san = keepNames [] c.dnsNames) := by
  have hcert : c.encode.length = _ :=
    Der.length_tlv asn1Sequence (Der.tlv asn1Sequence c.signed ++ c.signature)
  have hsigned := Der.length_tlv asn1Sequence c.signed
  rw [List.length_append] at hcert hlen
  have hbody : Holds d (0 + Der.header (Der.tlv asn1Sequence c.signed ++ c.signature))
    (Der.tlv asn1Sequence c.signed ++ c.signature) := Holds.content h
  have htbs : Holds d (0 + Der.header (Der.tlv asn1Sequence c.signed ++ c.signature) +
    Der.header c.signed) c.signed := hbody.left.content
  have hfields : c.signed.length = (encodeOptional asn1Cont0 c.version).length +
      ((Der.tlv asn1Integer c.serial).length + ((Der.tlv asn1Sequence c.algorithm).length +
        ((encodeName c.issuer).length + ((Der.tlv asn1Sequence c.validity).length +
          ((encodeName c.subject).length + ((Der.tlv asn1Sequence c.keyInfo).length +
            c.optionalFields.length)))))) := by
    simp only [Certificate.signed, List.length_append]
  have hserial := Der.length_tlv asn1Integer c.serial
  have halgorithm := Der.length_tlv asn1Sequence c.algorithm
  have hvalidity := Der.length_tlv asn1Sequence c.validity
  have hkey := Der.length_tlv asn1Sequence c.keyInfo
  rw [x509Parse, asn1Enter_tlv (show Holds d 0 (Der.tlv asn1Sequence _) from h)
    (by rw [← Certificate.encode]; omega) (by rw [List.length_append]; omega)]
  simp only [Option.bind_eq_bind, Option.bind_some]
  rw [asn1Enter_tlv hbody.left (by rw [List.length_append]; omega) (by omega)]
  simp only [Option.bind_some]
  generalize 0 + Der.header (Der.tlv asn1Sequence c.signed ++ c.signature) +
    Der.header c.signed = start at htbs ⊢
  generalize hend : start + c.signed.length = tbsEnd
  rw [Certificate.signed] at htbs
  have hversion : Holds d start (encodeOptional asn1Cont0 c.version ++
      Der.tlv asn1Integer c.serial) := by
    rw [← List.append_assoc] at htbs
    exact htbs.left
  rw [skipIf_optional hversion (by decide) (by omega) (by omega)]
  simp only [Option.bind_some]
  have h1 := htbs.right
  rw [skipIf_tlv h1.left (by omega) (by omega)]
  simp only [Option.bind_some]
  have h2 := h1.right
  rw [skipIf_tlv h2.left (by omega) (by omega)]
  simp only [Option.bind_some]
  have h3 := h2.right
  rw [parseName_encode h3.left (by omega) (by omega)]
  simp only [Option.bind_some]
  have h4 := h3.right
  rw [asn1Enter_tlv h4.left (by omega) (by omega)]
  simp only [Option.bind_some]
  have h5 := h4.right
  rw [hvalidity, ← Nat.add_assoc] at h5
  rw [parseName_encode h5.left (by omega) (by omega)]
  simp only [Option.bind_some]
  have h6 := h5.right
  refine ⟨_, rfl, rfl, fun hissuer hsubject => ?_⟩
  have hoptional : c.optionalFields =
      encodeOptional asn1Cont3 (c.extensions.map encodeExtensions) := by
    rw [Certificate.optionalFields, hissuer, hsubject]
    rfl
  rw [hoptional] at h6 hfields
  have hlast := h6.right
  have hkeyEnd : (parseKey d _ tbsEnd).2 = _ := parseKey_tlv h6.left (by omega) (by omega)
  simp only [hkeyEnd]
  rw [skipUnique_of_head (fun hlt => head_extensions hlast (by omega))]
  exact parseExtensions_encode hlast (by omega) (by omega)

end Parse

end OriaOS.Tls
