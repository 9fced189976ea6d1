import OriaOS.Tls.Certificate

/-!
# The host name of a certificate

When a name of a certificate covers a host, and what `x509_check_hostname` makes of the
names that the parser keeps: at most four alternative names, and the common name of the
subject beside them.
-/

namespace OriaOS.Tls

open OriaOS.Lib

/-! ## The comparison -/

/-- A name covers a host: they differ in case only, or the name is `*.suffix` and the host
has one label in front of the suffix. -/
def Covers (name host : Bytes) : Prop :=
  name.map lower = host.map lower ∨
    ∃ suffix label rest, name = 42 :: 46 :: suffix ∧ host = label ++ 46 :: rest ∧ label ≠ [] ∧
      46 ∉ label ∧ rest.map lower = suffix.map lower

theorem eq_of_lower_eq {b : UInt8} (h : lower b = 46) : b = 46 := by
  rw [lower] at h
  split at h
  next hletter =>
    have hsum : b = 14 := by
      rw [← UInt8.add_right_inj 32, UInt8.add_comm 32 b, h]
      rfl
    rw [hsum] at hletter
    exact absurd hletter.1 (by decide)
  next => exact h

/-- Strings compare as equal exactly if they differ in case only. -/
theorem xstricmp_eq_zero {as bs : Bytes} (ha : 0 ∉ as) (hb : 0 ∉ bs) :
    xstricmp as bs = 0 ↔ as.map lower = bs.map lower := by
  have hnonzero : ∀ {b : UInt8} {rest : Bytes}, 0 ∉ b :: rest → b.toNat ≠ 0 := by
    intro b rest hmem hzero
    have hb : b = 0 := UInt8.toNat_inj.mp hzero
    exact hmem (by rw [hb]; exact List.mem_cons_self)
  induction as generalizing bs with
  | nil =>
      cases bs with
      | nil => simp [xstricmp]
      | cons b bs =>
          have hne := hnonzero hb
          simp [xstricmp, hne]
  | cons a as ih =>
      cases bs with
      | nil =>
          have hne := hnonzero ha
          simp [xstricmp, hne]
      | cons b bs =>
          rw [xstricmp, List.map_cons, List.map_cons, List.cons.injEq]
          by_cases heq : lower a = lower b
          · rw [if_neg (not_not.mpr heq)]
            simp only [heq, true_and]
            exact ih (List.not_mem_of_not_mem_cons ha) (List.not_mem_of_not_mem_cons hb)
          · rw [if_pos heq]
            have hnat := mt UInt8.toNat_inj.mp heq
            simp only [heq, false_and, iff_false]
            omega

/-- The host behind its first dot. -/
theorem dropWhile_label {label rest : Bytes} (h : 46 ∉ label) :
    (label ++ 46 :: rest).dropWhile (· ≠ 46) = 46 :: rest := by
  rw [List.dropWhile_append_of_pos]
  · rfl
  · intro b hb
    have hne : b ≠ 46 := fun heq => h (heq ▸ hb)
    simpa using hne

/-- A host is one label and what follows its first dot. -/
theorem exists_label {host rest : Bytes} {b : UInt8}
    (h : host.dropWhile (· ≠ 46) = b :: rest) :
    ∃ label, host = label ++ 46 :: rest ∧ 46 ∉ label := by
  have hb : b = 46 := by
    have hhead := List.head?_dropWhile_not (· ≠ (46 : UInt8)) host
    rw [h] at hhead
    simpa using hhead
  refine ⟨host.takeWhile (· ≠ 46), ?_, ?_⟩
  · conv_lhs => rw [← List.takeWhile_append_dropWhile (p := (· ≠ (46 : UInt8))) (l := host), h, hb]
  · intro hmem
    exact absurd (List.mem_takeWhile_imp hmem) (by simp)

/-- A host that equals `*.suffix` up to case. -/
theorem two_of_map {suffix host : Bytes}
    (h : (42 :: 46 :: suffix : Bytes).map lower = host.map lower) :
    ∃ first second tail, host = first :: second :: tail ∧ second = 46 ∧
      tail.map lower = suffix.map lower := by
  cases host with
  | nil => simp at h
  | cons first host =>
      cases host with
      | nil => simp at h
      | cons second tail =>
          simp only [List.map_cons, List.cons.injEq] at h
          exact ⟨first, second, tail, rfl, eq_of_lower_eq h.2.1.symm, h.2.2.symm⟩

/-- The match is the relation, for a host that does not start with a dot. -/
theorem wildcardMatch_iff {name host : Bytes} (hname : 0 ∉ name) (hhost : 0 ∉ host)
    (hdot : host.head? ≠ some 46) : wildcardMatch name host = true ↔ Covers name host := by
  unfold wildcardMatch
  split
  next suffix =>
    have hsuffix : 0 ∉ suffix := fun hmem => hname (by simp [hmem])
    split
    next hdrop =>
      -- A host without a dot is no match, and nothing with a dot equals it.
      have hno : 46 ∉ host := by
        intro hmem
        exact absurd (List.dropWhile_eq_nil_iff.mp hdrop 46 hmem) (by simp)
      simp only [Bool.false_eq_true, false_iff]
      rintro (heq | ⟨suffix', label, rest, -, hsplit, -⟩)
      · have hlower : lower 46 ∈ host.map lower := by
          rw [← heq]
          simp
        obtain ⟨b, hmem, hb⟩ := List.mem_map.mp hlower
        exact hno (eq_of_lower_eq hb ▸ hmem)
      · exact hno (by rw [hsplit]; simp)
    next b rest hdrop =>
      obtain ⟨label, hsplit, hlabel⟩ := exists_label hdrop
      have hrest : 0 ∉ rest := fun hmem => hhost (by rw [hsplit]; simp [hmem])
      rw [decide_eq_true_eq, xstricmp_eq_zero hrest hsuffix]
      constructor
      · intro heq
        refine Or.inr ⟨suffix, label, rest, rfl, hsplit, ?_, hlabel, heq⟩
        rintro rfl
        exact hdot (by rw [hsplit]; rfl)
      · rintro (heq | ⟨suffix', label', rest', hpat, hsplit', -, hlabel', heq⟩)
        · -- A host that equals the pattern has the label `*` in front of the suffix.
          obtain ⟨first, second, tail, rfl, hsecond, htail⟩ := two_of_map heq
          have hfirst : 46 ∉ [first] := by
            rw [List.mem_singleton]
            exact fun h => hdot (by rw [← h]; rfl)
          rw [show first :: second :: tail = [first] ++ 46 :: tail by rw [hsecond]; rfl,
            dropWhile_label hfirst] at hdrop
          rw [← (List.cons.inj hdrop).2, htail]
        · rw [hsplit', dropWhile_label hlabel'] at hdrop
          obtain rfl : suffix = suffix' := by simpa using hpat
          rw [← (List.cons.inj hdrop).2, heq]
  next hpattern =>
    rw [decide_eq_true_eq, xstricmp_eq_zero hname hhost]
    refine ⟨Or.inl, ?_⟩
    rintro (heq | ⟨suffix, -, -, hpat, -⟩)
    · exact heq
    · exact absurd hpat (hpattern suffix)

/-! ## The names that are kept -/

/-- A name is kept whole in its array, and read back whole. -/
def Fits (name : Bytes) : Prop := 0 ∉ name ∧ name.length ≤ 127

instance : DecidablePred Fits := fun name => inferInstanceAs (Decidable (0 ∉ name ∧ _))

theorem cString_of_fits {name : Bytes} (h : Fits name) : cString (name.take 127) = name := by
  rw [List.take_of_length_le h.2, cString, List.takeWhile_eq_self_iff]
  intro b hb
  have hne : b ≠ 0 := fun heq => h.1 (heq ▸ hb)
  simpa using hne

/-- The first names of a list are those that the array has. -/
theorem any_keepNames {names : List Bytes} {host : Bytes}
    (hfit : ∀ n ∈ names.take 4, Fits n)
    (hhost : 0 ∉ host) (hdot : host.head? ≠ some 46) :
    (keepNames [] names).any (fun name => wildcardMatch (cString name) host) = true ↔
      ∃ n ∈ names.take 4, Covers n host := by
  rw [keepNames, List.nil_append, ← List.map_take, List.any_map, List.any_eq_true]
  refine exists_congr fun n => and_congr_right fun hn => ?_
  rw [Function.comp_apply, cString_of_fits (hfit n hn), wildcardMatch_iff (hfit n hn).1 hhost hdot]

/-- The names of a certificate that are looked at: the first four alternative names, and
the first common name if its type is read and it is not empty. -/
def Certificate.readNames (c : Certificate) : List Bytes :=
  c.dnsNames.take 4 ++
    (((commonName c.subject).filter fun a => a.tag ∈ stringTags ∧ a.value ≠ []).map
      Attribute.value).toList

/-- A certificate is for a host by its alternative names, and by its common name only if it
has none. -/
def Certificate.Names (c : Certificate) (host : Bytes) : Prop :=
  (∃ n ∈ c.dnsNames, Covers n host) ∨
    c.dnsNames = [] ∧ ∃ a, commonName c.subject = some a ∧ Covers a.value host

/-- A certificate that is too long is not accepted. -/
theorem length_of_accepted {c : Certificate} {d : Mem} {cert : X509Cert}
    (h : Holds d 0 c.encode) (hlen : c.encode.length < 4294967296)
    (haccept : x509Parse d c.encode.length = some cert) :
    (Der.tlv asn1Sequence c.signed ++ c.signature).length < 2147483648 := by
  by_contra hlong
  have hcert : c.encode.length = _ :=
    Der.length_tlv asn1Sequence (Der.tlv asn1Sequence c.signed ++ c.signature)
  rw [x509Parse, asn1Enter_long (show Holds d 0 (Der.tlv asn1Sequence _) from h)
    (by rw [← Certificate.encode]; omega) (by omega) (by omega)] at haccept
  exact absurd haccept (by simp)

/-- The common name that is stored covers a host. -/
theorem commonName_covers {cn : Option Attribute} {host : Bytes}
    (hfit : ∀ a, cn = some a → a.tag ∈ stringTags → a.value ≠ [] → Fits a.value) (hhost : 0 ∉ host)
    (hdot : host.head? ≠ some 46) :
    cString ((cn.map Attribute.stored).getD []) ≠ [] ∧
        wildcardMatch (cString ((cn.map Attribute.stored).getD [])) host = true ↔
      ∃ a, cn = some a ∧ a.tag ∈ stringTags ∧ a.value ≠ [] ∧ Covers a.value host := by
  have hempty : cString [] = [] := rfl
  cases cn with
  | none => simp [hempty]
  | some a =>
      simp only [Option.map_some, Option.getD_some, Attribute.stored, Option.some.injEq,
        exists_eq_left']
      by_cases htag : a.tag ∈ stringTags
      · rw [if_pos htag]
        by_cases hvalue : a.value = []
        · simp [hvalue, hempty]
        · have hfits := hfit a rfl htag hvalue
          rw [cString_of_fits hfits, wildcardMatch_iff hfits.1 hhost hdot]
          simp only [htag, true_and]
      · rw [if_neg htag, hempty]
        simp [htag]

theorem mem_readNames {c : Certificate} {n : Bytes} :
    n ∈ c.readNames ↔ n ∈ c.dnsNames.take 4 ∨
      ∃ a, commonName c.subject = some a ∧ a.tag ∈ stringTags ∧ a.value ≠ [] ∧ a.value = n := by
  rw [Certificate.readNames, List.mem_append, Option.mem_toList]
  simp only [Option.map_eq_some_iff, Option.filter_eq_some_iff, decide_eq_true_eq,
    and_assoc]

/-- The check of a certificate that the parser accepts. -/
theorem check_hostname {c : Certificate} {d : Mem} {cert : X509Cert} {host : Bytes}
    (hd : Holds d 0 c.encode) (hlen : c.encode.length < 4294967296)
    (haccept : x509Parse d c.encode.length = some cert)
    (huid : c.issuerUid = none ∧ c.subjectUid = none) (hfit : ∀ n ∈ c.readNames, Fits n)
    (hhost : 0 ∉ host) (hdot : host.head? ≠ some 46) :
    x509CheckHostname cert host = true ↔ ∃ n ∈ c.readNames, Covers n host := by
  obtain ⟨cert', haccept', hcn, hsan⟩ :=
    x509Parse_encode hd (length_of_accepted hd hlen haccept)
  obtain rfl : cert = cert' := Option.some.inj (haccept.symm.trans haccept')
  have hdns : ∀ n ∈ c.dnsNames.take 4, Fits n := fun n hn => hfit n (mem_readNames.mpr (Or.inl hn))
  have hname : ∀ a, commonName c.subject = some a → a.tag ∈ stringTags → a.value ≠ [] →
      Fits a.value := by
    intro a ha htag hvalue
    exact hfit a.value (mem_readNames.mpr (Or.inr ⟨a, ha, htag, hvalue, rfl⟩))
  rw [x509CheckHostname, hsan huid.1 huid.2, hcn, Bool.or_eq_true, any_keepNames hdns hhost hdot,
    Bool.and_eq_true, decide_eq_true_eq, commonName_covers hname hhost hdot]
  constructor
  · rintro (⟨n, hn, hcovers⟩ | ⟨a, ha, htag, hvalue, hcovers⟩)
    · exact ⟨n, mem_readNames.mpr (Or.inl hn), hcovers⟩
    · exact ⟨a.value, mem_readNames.mpr (Or.inr ⟨a, ha, htag, hvalue, rfl⟩), hcovers⟩
  · rintro ⟨n, hn, hcovers⟩
    rcases mem_readNames.mp hn with hn | ⟨a, ha, htag, hvalue, rfl⟩
    · exact Or.inl ⟨n, hn, hcovers⟩
    · exact Or.inr ⟨a, ha, htag, hvalue, hcovers⟩

/-- A certificate with the alternative name `a` and the common name `b`. -/
def twoNames : Certificate where
  version := none
  serial := [1]
  algorithm := []
  issuer := []
  validity := []
  subject := [[⟨oidCn, 0x0C, [98]⟩]]
  keyInfo := []
  issuerUid := none
  subjectUid := none
  extensions := some [.altNames false [⟨0x82, [97]⟩]]
  signature := []

def twoNamesStored : X509Cert := ⟨[98], [], noTime, noTime, 0, 0, [[97]]⟩

theorem x509Parse_twoNames :
    x509Parse (overlay twoNames.encode fun _ => 0) twoNames.encode.length =
      some twoNamesStored := by
  decide +kernel

theorem check_hostname_twoNames :
    x509CheckHostname twoNamesStored [65] = true ↔ ∃ n ∈ twoNames.readNames, Covers n [65] :=
  check_hostname (holds_overlay twoNames.encode fun _ => 0) (by decide) x509Parse_twoNames
    ⟨rfl, rfl⟩ (by decide) (by decide) (by decide)

theorem commonName_consulted :
    ∃ cert, x509Parse (overlay twoNames.encode fun _ => 0) twoNames.encode.length = some cert ∧
      x509CheckHostname cert [98] = true ∧ ¬ twoNames.Names [98] := by
  refine ⟨twoNamesStored, x509Parse_twoNames, by decide, ?_⟩
  rintro (⟨n, hn, hcovers⟩ | ⟨hnone, -⟩)
  · have hnames : twoNames.dnsNames = [[97]] := rfl
    rw [hnames, List.mem_singleton] at hn
    rcases hcovers with heq | ⟨suffix, -, -, hpat, -⟩
    · rw [hn] at heq
      exact absurd heq (by decide)
    · rw [hn] at hpat
      exact absurd hpat (by simp)
  · exact absurd hnone (by decide)

/-- A certificate with five alternative names. -/
def fiveNames : Certificate :=
  { twoNames with
    extensions := some [.altNames false [⟨0x82, [97]⟩, ⟨0x82, [98]⟩, ⟨0x82, [99]⟩,
      ⟨0x82, [100]⟩, ⟨0x82, [101]⟩]] }

theorem fifth_name_missed :
    ∃ cert, x509Parse (overlay fiveNames.encode fun _ => 0) fiveNames.encode.length = some cert ∧
      x509CheckHostname cert [101] = false ∧ fiveNames.Names [101] := by
  refine ⟨⟨[98], [], noTime, noTime, 0, 0, [[97], [98], [99], [100]]⟩, by decide +kernel,
    by decide, Or.inl ⟨[101], by decide, Or.inl rfl⟩⟩

end OriaOS.Tls
