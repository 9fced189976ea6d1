import OriaOS.Http.Response
import OriaOS.Lib.Pieces
import Mathlib.Data.List.TakeWhile

/-!
# Fetching a page

What `http_get` and `https_get` show of a response and count of its body, however its bytes
arrive. `http_get` shows the payload as it comes, so it is right about every body that is not in
chunks; `https_get` ends the head of a page with a zero where the body may start, and looks for
that end in one record at a time, so it is right only if the head ends with a record.
-/

namespace OriaOS.Http

open OriaOS.Lib

/-- A character shown in the colour of the header or of the body. -/
inductive Shown
  | head (c : UInt8)
  | body (c : UInt8)
  deriving DecidableEq

/-- What is on the screen, and the count of bytes, unless its text does not fit. -/
structure Page where
  shown : List Shown
  report : Option Bytes

/-- `itoa` into the ten bytes of `nb`. -/
def report (count : UInt32) : Option Bytes :=
  let digits := Decimal.digits count.toNat
  if digits.length < 10 then some digits else none

/-! ## `http_get` -/

/-- `sizeof(hbuf) - 1`. -/
abbrev hbufSize : Nat := 2047

/-- `sizeof(body_prefix) - 1`. -/
abbrev prefixSize : Nat := 255

/-- The header phase: the buffer, the last four bytes, whether the end was seen, and the bytes
that came behind it. -/
structure HeadState where
  hbuf : Bytes
  hw : Bytes
  done : Bool
  bodyPrefix : Bytes

def headStart : HeadState := ⟨[], [0, 0, 0, 0], false, []⟩

/-- One byte of the header phase. -/
def headStep (st : HeadState) (ch : UInt8) : HeadState :=
  if !st.done then
    let hw := st.hw.drop 1 ++ [ch]
    { st with
      hbuf := if st.hbuf.length < hbufSize then st.hbuf ++ [ch] else st.hbuf
      hw := hw
      done := hw = crlf2 }
  else if st.bodyPrefix.length < prefixSize then { st with bodyPrefix := st.bodyPrefix ++ [ch] }
  else st

/-- `http_parse_status`. -/
def httpParseStatus (hdr : Bytes) : UInt32 :=
  let version := (hdr ++ [0]).dropWhile fun c => c != 0 && c != space
  (Decimal.scan 0 (version.dropWhile (· == space))).1

/-- The body phase: what was shown, and the count. -/
structure BodyState where
  shown : Bytes
  count : UInt32

/-- One byte of the body phase. -/
def bodyStep (st : BodyState) (ch : UInt8) : BodyState where
  shown := if printable ch then st.shown ++ [ch] else st.shown
  count := st.count + 1

/-- A page, or a redirect with the head that announced it. -/
inductive Outcome
  | page (p : Page)
  | redirected (head : Bytes)

def headPhase (s : Incoming UInt8) : HeadState × Incoming UInt8 :=
  s.loop 127 (·.done) (fun st piece => piece.foldl headStep st) headStart

def bodyPhase (st : BodyState) (s : Incoming UInt8) : BodyState :=
  (s.loop 255 (fun _ => false) (fun st piece => piece.foldl bodyStep st) st).1

/-- `http_get` from the first receive on. -/
def httpGet (s : Incoming UInt8) : Outcome :=
  let r := headPhase s
  let status := httpParseStatus r.1.hbuf
  if 300 ≤ status ∧ status < 400 then .redirected r.1.hbuf
  else
    let st := r.1.bodyPrefix.foldl bodyStep ⟨[], 0⟩
    let st := bodyPhase st r.2
    -- a zero prints nothing
    .page ⟨(r.1.hbuf.filter (· != 0)).map .head ++ st.shown.map .body, report st.count⟩

/-! ## `https_get` -/

/-- The receive loop: whether the body has started, what was shown, and the count. -/
structure TlsState where
  started : Bool
  shown : List Shown
  count : UInt32

/-- What `print` shows of memory. -/
def cstr (mem : Bytes) : Bytes := mem.takeWhile (· != 0)

/-- The search for the end of the head in a record. -/
def findEnd (record : Bytes) : Option Nat :=
  (List.range (record.length - 3)).find? fun i => (record.drop i).take 4 = crlf2

/-- One record. A zero is stored behind it, and behind the end of the head. -/
def recordStep (st : TlsState) (record : Bytes) : TlsState :=
  let got := record.length
  let rbuf := record ++ [0]
  if st.started then
    { st with shown := st.shown ++ (cstr rbuf).map .body, count := st.count + UInt32.ofNat got }
  else
    match findEnd record with
    | some i =>
        let rbuf := rbuf.set (i + 4) 0
        let st := { st with started := true, shown := st.shown ++ (cstr rbuf).map .head }
        if i + 4 < got then
          let rbuf := rbuf.set got 0
          { st with
            count := st.count + UInt32.ofNat (got - (i + 4))
            shown := st.shown ++ (cstr (rbuf.drop (i + 4))).map .body }
        else st
    | none => { st with shown := st.shown ++ (cstr rbuf).map .head }

/-- `https_get` from the first receive on. -/
def httpsGet (s : Incoming UInt8) : Page :=
  let st := (s.loop 4095 (fun _ => false) recordStep ⟨false, [], 0⟩).1
  ⟨st.shown, report st.count⟩

/-! ## Delivery -/

inductive Path
  | http
  | https

def fetch : Path → Incoming UInt8 → Outcome
  | .http, s => httpGet s
  | .https, s => .page (httpsGet s)

/-- The body a page should show: the entity, which stands behind a transfer coding on the path of
HTTP/1.1. -/
def Response.body (r : Response) : Path → Bytes
  | .http => r.coding.entity
  | .https => r.coding.payload

/-- The body is shown once and in order behind the headers, and its length is reported. -/
structure Page.Delivers (p : Page) (body : Bytes) : Prop where
  shown : ∃ head : Bytes, p.shown = head.map .head ++ body.map .body
  report : p.report = some (Decimal.digits body.length)

def Outcome.Delivers (body : Bytes) : Outcome → Prop
  | .page p => p.Delivers body
  | .redirected _ => False

/-- The head ends at the end of a record, and its last four bytes are in that record. -/
def Aligned (head : Bytes) (records : List Bytes) : Prop :=
  ∃ before last after, records = before ++ last :: after ∧ before.flatten ++ last = head ∧
    4 ≤ last.length

/-- When the body is delivered: it has fewer than 10^9 bytes, and it is not in chunks, or the head
is aligned; over TLS an empty body always is. -/
def Response.Clean (r : Response) (ready : Nat → Nat) : Path → Prop
  | .http => r.coding.isChunked = false ∧ r.coding.entity.length < 10 ^ 9
  | .https => r.coding.payload = [] ∨
      Aligned r.head (Incoming.pieces 4095 ⟨r.wire, ready⟩) ∧ r.coding.payload.length < 10 ^ 9

/-! ## The count -/

/-- The count of up to nine digits is reported. -/
theorem report_eq {n : Nat} :
    report (UInt32.ofNat n) = some (Decimal.digits n) ↔ n < 10 ^ 9 := by
  have hlen := Decimal.length_digits_le (n := n) (k := 9) (by decide)
  constructor
  · intro h
    rw [report] at h
    split at h
    · next hfits =>
        rw [Option.some.inj h] at hfits
        exact hlen.mp (Nat.le_of_lt_succ hfits)
    · cases h
  · intro h
    have hword : (UInt32.ofNat n).toNat = n :=
      UInt32.toNat_ofNat_of_lt' (Nat.lt_trans h (by decide))
    rw [report, hword]
    exact if_pos (Nat.lt_succ_of_le (hlen.mpr h))

/-! ## The head over `http_get` -/

/-- The last four bytes. -/
def window (p : Bytes) : Bytes := ([0, 0, 0, 0] ++ p).drop p.length

theorem window_concat (p : Bytes) (c : UInt8) : (window p).drop 1 ++ [c] = window (p ++ [c]) := by
  have hle : p.length + 1 ≤ ([0, 0, 0, 0] ++ p : Bytes).length := by
    rw [List.length_append]
    exact Nat.le_trans (Nat.add_le_add_left (by decide) _) (Nat.le_of_eq (Nat.add_comm _ 4))
  rw [window, window, List.drop_drop, List.length_append, ← List.append_assoc]
  exact (List.drop_append_of_le_length hle).symm

theorem window_eq_crlf2 {p : Bytes} : window p = crlf2 ↔ crlf2 <:+ p := by
  rw [window, List.drop_append, List.suffix_iff_eq_drop]
  match p with
  | [] => decide
  | [a] => simp [crlf2, cr, lf]
  | [a, b] => simp [crlf2, cr, lf]
  | [a, b, c] => simp [crlf2, cr, lf]
  | a :: b :: c :: d :: p => simp [crlf2, eq_comm]

/-- Before the end of the head. -/
def HeadState.before (p : Bytes) : HeadState := ⟨p.take hbufSize, window p, false, []⟩

theorem take_concat (p : Bytes) (c : UInt8) :
    (if (p.take hbufSize).length < hbufSize then p.take hbufSize ++ [c] else p.take hbufSize) =
      (p ++ [c]).take hbufSize := by
  rw [List.length_take]
  split
  · next h =>
      have hlt : p.length < hbufSize := by omega
      rw [List.take_of_length_le (Nat.le_of_lt hlt), List.take_of_length_le (by simp; omega)]
  · next h => rw [List.take_append_of_le_length (by omega)]

theorem headStep_before (p : Bytes) (c : UInt8) :
    headStep (.before p) c =
      { HeadState.before (p ++ [c]) with done := decide (crlf2 <:+ p ++ [c]) } := by
  rw [headStep, HeadState.before, HeadState.before]
  simp only [Bool.not_false, if_true, take_concat, window_concat, window_eq_crlf2]

/-- A part of the head. -/
theorem foldl_headStep_before {head p x z : Bytes} (hhead : EndsFirst head) (hz : z ≠ [])
    (h : head = p ++ (x ++ z)) : x.foldl headStep (.before p) = .before (p ++ x) := by
  induction x generalizing p with
  | nil => rw [List.append_nil, List.foldl_nil]
  | cons c x ih =>
      have hnot : ¬ crlf2 <:+ p ++ [c] := by
        rintro ⟨q, hq⟩
        have hrest : head = q ++ (crlf2 ++ (x ++ z)) := by
          rw [h, ← List.append_assoc q, hq]
          simp
        exact hz (List.append_eq_nil_iff.mp (hhead.first q _ hrest)).2
      have hstep : headStep (.before p) c = .before (p ++ [c]) := by
        rw [headStep_before, decide_eq_false hnot]
        rfl
      rw [List.foldl_cons, hstep, ih (by rw [h]; simp), List.append_assoc]
      rfl

/-- The rest of the head. -/
theorem foldl_headStep_end {head p x : Bytes} (hhead : EndsFirst head) (hx : x ≠ [])
    (h : head = p ++ x) :
    x.foldl headStep (.before p) = { HeadState.before head with done := true } := by
  obtain ⟨x, c, rfl⟩ := (List.eq_nil_or_concat' x).resolve_left hx
  have hends : crlf2 <:+ (p ++ x) ++ [c] := by
    rw [List.append_assoc, ← h]
    exact hhead.ends
  rw [List.foldl_append, foldl_headStep_before hhead (List.cons_ne_nil c []) h, List.foldl_cons,
    headStep_before, decide_eq_true hends, List.foldl_nil, h, List.append_assoc]

/-- Behind the head, as long as the prefix has room. -/
theorem foldl_headStep_done (st : HeadState) {y : Bytes} (hdone : st.done = true)
    (hroom : st.bodyPrefix.length + y.length ≤ prefixSize) :
    y.foldl headStep st = { st with bodyPrefix := st.bodyPrefix ++ y } := by
  induction y generalizing st with
  | nil => rw [List.append_nil, List.foldl_nil]
  | cons c y ih =>
      rw [List.length_cons] at hroom
      have hstep : headStep st c = { st with bodyPrefix := st.bodyPrefix ++ [c] } := by
        rw [headStep, if_neg (by simp [hdone]), if_pos (by omega)]
      have hrest := ih { st with bodyPrefix := st.bodyPrefix ++ [c] } hdone (by simp; omega)
      rw [List.foldl_cons, hstep, hrest, List.append_assoc]
      rfl

/-- The header phase: part of the head has come, or all of it and some of the payload. -/
def HeadPhase (head payload : Bytes) (st : HeadState) (rest : Bytes) : Prop :=
  (∃ p z, st = .before p ∧ z ≠ [] ∧ head = p ++ z ∧ rest = z ++ payload) ∨
    st.done = true ∧ st.hbuf = head.take hbufSize ∧ st.bodyPrefix ++ rest = payload

/-- One piece of the header phase, of which the body part fits into the prefix. -/
theorem HeadPhase.step {head payload piece rest : Bytes} {st : HeadState}
    (hhead : EndsFirst head) (hdone : st.done = false) (hlen : piece.length ≤ 127)
    (h : HeadPhase head payload st (piece ++ rest)) :
    HeadPhase head payload (piece.foldl headStep st) rest := by
  rcases h with ⟨p, z, rfl, hz, rfl, hrest⟩ | ⟨htrue, -, -⟩
  · rcases List.append_eq_append_iff.mp hrest with ⟨x, rfl, rfl⟩ | ⟨x, rfl, rfl⟩
    · by_cases hx : x = []
      · subst hx
        rw [List.append_nil] at hz hhead ⊢
        rw [foldl_headStep_end hhead hz rfl]
        exact Or.inr ⟨rfl, rfl, rfl⟩
      · rw [foldl_headStep_before hhead hx rfl]
        exact Or.inl ⟨p ++ piece, x, rfl, hx, (List.append_assoc ..).symm, rfl⟩
    · rw [List.length_append] at hlen
      rw [List.foldl_append, foldl_headStep_end hhead hz rfl,
        foldl_headStep_done _ rfl (by simp [HeadState.before, prefixSize]; omega)]
      exact Or.inr ⟨rfl, rfl, rfl⟩
  · rw [htrue] at hdone
    cases hdone

/-! ## The status and the body over `http_get` -/

/-- The status is 200, wherever the head is cut. -/
theorem httpParseStatus_head (r : Response) : httpParseStatus (r.head.take hbufSize) = 200 := by
  obtain ⟨rest, hhead, hrest⟩ : ∃ rest,
      r.head = text "HTTP/1." ++ (r.minor :: (text " 200" ++ rest)) ∧
        ∀ c, rest.head? = some c → c = space ∨ c = cr := by
    refine ⟨r.reason ++ (crlf ++ (r.fields.flatMap (· ++ crlf) ++ crlf)), ?_, ?_⟩
    · simp [Response.head, Response.statusLine]
    · intro c hc
      cases hreason : r.reason with
      | nil =>
          rw [hreason] at hc
          exact Or.inr (Option.some.inj hc).symm
      | cons d l =>
          rw [hreason] at hc
          have hd := r.reasonStart d (by rw [hreason]; rfl)
          exact Or.inl ((Option.some.inj hc).symm.trans hd)
  have htake : (r.head.take hbufSize) ++ [0] =
      (text "HTTP/1." ++ [r.minor]) ++ (text " 200" ++ (rest.take 2035 ++ [0])) := by
    rw [hhead]
    rfl
  have hversion : ∀ c ∈ text "HTTP/1." ++ [r.minor], (c != 0 && c != space) = true := by
    have htext : (text "HTTP/1.").all (fun c => c != 0 && c != space) = true := by decide
    have hminor : (r.minor != 0 && r.minor != space) = true := by
      have hdigit := r.isDigit
      rw [Bool.and_eq_true, bne_iff_ne, bne_iff_ne]
      constructor
      · intro h
        rw [h] at hdigit
        exact absurd hdigit (by decide)
      · intro h
        rw [h] at hdigit
        exact absurd hdigit (by decide)
    rw [List.forall_mem_append]
    exact ⟨List.all_eq_true.mp htext, List.forall_mem_singleton.mpr hminor⟩
  have hdigits : ∀ c ∈ text "200", Decimal.isDigit c = true :=
    List.all_eq_true.mp (by decide)
  have hstop : ∀ c, (rest.take 2035 ++ [0]).head? = some c → Decimal.isDigit c = false := by
    intro c hc
    cases rest with
    | nil =>
        obtain rfl := Option.some.inj hc
        rfl
    | cons d rest =>
        obtain rfl := Option.some.inj hc
        rcases hrest d rfl with rfl | rfl
        · rfl
        · rfl
  rw [httpParseStatus, htake, List.dropWhile_append_of_pos hversion]
  have hscan := Decimal.scan_append 0 hdigits hstop
  exact congrArg Prod.fst hscan

/-- The body phase shows what is printable, and counts everything. -/
theorem foldl_bodyStep (l : Bytes) (st : BodyState) :
    l.foldl bodyStep st = ⟨st.shown ++ l.filter printable, st.count + UInt32.ofNat l.length⟩ := by
  induction l generalizing st with
  | nil => simp
  | cons c l ih =>
      rw [List.foldl_cons, ih, bodyStep, List.filter_cons, List.length_cons, Nat.add_comm,
        UInt32.ofNat_add, UInt32.add_assoc]
      split
      · simp
      · rfl

theorem headPhase_eq (r : Response) (ready : Nat → Nat) :
    (headPhase ⟨r.wire, ready⟩).1.hbuf = r.head.take hbufSize ∧
      (headPhase ⟨r.wire, ready⟩).1.bodyPrefix ++ (headPhase ⟨r.wire, ready⟩).2.rest =
        r.coding.payload := by
  have hstart : HeadPhase r.head r.coding.payload headStart r.wire :=
    Or.inl ⟨[], r.head, rfl, r.head_ne_nil, rfl, rfl⟩
  obtain ⟨hphase, hend⟩ :
      HeadPhase r.head r.coding.payload (headPhase ⟨r.wire, ready⟩).1
          (headPhase ⟨r.wire, ready⟩).2.rest ∧
        ((headPhase ⟨r.wire, ready⟩).1.done = true ∨ (headPhase ⟨r.wire, ready⟩).2.rest = []) :=
    Incoming.loop_ind (by decide) (fun _ _ _ hdone hlen h => h.step r.endsFirst hdone hlen) hstart
  rcases hphase with ⟨p, z, hst, hz, -, hrest⟩ | ⟨-, hhbuf, hpayload⟩
  · exfalso
    rcases hend with hdone | hnil
    · rw [hst] at hdone
      cases hdone
    · rw [hnil] at hrest
      exact hz (List.append_eq_nil_iff.mp hrest.symm).1
  · exact ⟨hhbuf, hpayload⟩

theorem bodyPhase_eq (st : BodyState) (s : Incoming UInt8) :
    bodyPhase st s = s.rest.foldl bodyStep st := by
  rw [bodyPhase, Incoming.loop_eq_foldl, ← List.foldl_flatten, Incoming.flatten_pieces (by decide)]

/-- What `http_get` shows of a response, and counts. -/
theorem httpGet_eq (r : Response) (ready : Nat → Nat) :
    ∃ head : Bytes, httpGet ⟨r.wire, ready⟩ =
      .page ⟨head.map .head ++ (r.coding.payload.filter printable).map .body,
        report (UInt32.ofNat r.coding.payload.length)⟩ := by
  obtain ⟨hhbuf, hpayload⟩ := headPhase_eq r ready
  have hstatus : ¬ ((300 : UInt32) ≤ 200 ∧ (200 : UInt32) < 400) := by decide
  refine ⟨(r.head.take hbufSize).filter (· != 0), ?_⟩
  rw [httpGet, hhbuf, httpParseStatus_head]
  simp only [if_neg hstatus, bodyPhase_eq]
  rw [← List.foldl_append, hpayload, foldl_bodyStep, List.nil_append, UInt32.zero_add]

/-- What is shown in the colour of the body. -/
def bodyOf (l : List Shown) : Bytes :=
  l.filterMap fun
    | .head _ => none
    | .body c => some c

@[simp] theorem bodyOf_append (l m : List Shown) : bodyOf (l ++ m) = bodyOf l ++ bodyOf m :=
  List.filterMap_append

@[simp] theorem bodyOf_map_head (l : Bytes) : bodyOf (l.map .head) = [] := by
  simp [bodyOf]

@[simp] theorem bodyOf_map_body (l : Bytes) : bodyOf (l.map .body) = l := by
  simp [bodyOf, List.filterMap_map]

theorem Page.Delivers.bodyOf_shown {p : Page} {body : Bytes} (h : p.Delivers body) :
    bodyOf p.shown = body := by
  obtain ⟨head, hshown⟩ := h.shown
  simp [hshown]

/-- Over HTTP/1.1 a body is delivered as long as it is not in chunks. -/
theorem httpGet_delivers (r : Response) (ready : Nat → Nat) :
    (httpGet ⟨r.wire, ready⟩).Delivers r.coding.entity ↔
      r.coding.isChunked = false ∧ r.coding.entity.length < 10 ^ 9 := by
  obtain ⟨head, hget⟩ := httpGet_eq r ready
  have hentity := r.entityPrintable
  rw [hget]
  cases hcoding : r.coding with
  | identity body =>
      rw [hcoding] at hentity
      have hall : body.filter printable = body := List.filter_eq_self.mpr hentity
      rw [Coding.payload, Coding.entity, hall, ← report_eq]
      constructor
      · intro h
        exact ⟨rfl, h.report⟩
      · rintro ⟨-, hreport⟩
        exact ⟨⟨head, rfl⟩, hreport⟩
  | chunked body =>
      rw [hcoding] at hentity
      constructor
      · intro h
        have hshown := congrArg List.length h.bodyOf_shown
        have hlen := body.length_printed hentity
        simp only [bodyOf_append, bodyOf_map_head, bodyOf_map_body, List.nil_append,
          Coding.payload, Coding.entity] at hshown
        omega
      · rintro ⟨hchunked, -⟩
        cases hchunked

/-! ## The records over `https_get` -/

theorem cstr_append_zero (l m : Bytes) : cstr (l ++ 0 :: m) = cstr l := by
  induction l with
  | nil => rfl
  | cons c l ih =>
      rw [cstr, cstr, List.cons_append, List.takeWhile_cons, List.takeWhile_cons]
      split
      · exact congrArg (c :: ·) ih
      · rfl

theorem cstr_eq_self {l : Bytes} (h : ∀ c ∈ l, c ≠ 0) : cstr l = l :=
  List.takeWhile_eq_self_iff.mpr fun c hc => bne_iff_ne.mpr (h c hc)

theorem length_cstr_le (l : Bytes) : (cstr l).length ≤ l.length :=
  (List.takeWhile_sublist _).length_le

theorem cstr_drop {l : Bytes} {k : Nat} (h : l[k]? = some 0) : cstr (l.drop k) = [] := by
  obtain ⟨hlt, hzero⟩ := List.getElem?_eq_some_iff.mp h
  rw [List.drop_eq_getElem_cons hlt, hzero]
  rfl

theorem findEnd_le {record : Bytes} {i : Nat} (h : findEnd record = some i) :
    i + 4 ≤ record.length := by
  have hmem := List.mem_range.mp (List.mem_of_find?_eq_some h)
  omega

theorem findEnd_short {record : Bytes} (h : record.length < 4) : findEnd record = none := by
  cases hfind : findEnd record with
  | none => rfl
  | some i => exact absurd (findEnd_le hfind) (by omega)

theorem findEnd_eq_none {record : Bytes} (h : ∀ q t, record ≠ q ++ (crlf2 ++ t)) :
    findEnd record = none := by
  rw [findEnd, List.find?_eq_none]
  intro i _ htake
  have htake : (record.drop i).take 4 = crlf2 := of_decide_eq_true htake
  have hsplit : record = record.take i ++ (crlf2 ++ (record.drop i).drop 4) := by
    rw [← htake, List.take_append_drop, List.take_append_drop]
  exact h _ _ hsplit

/-- The end of the head is found if it is the first empty line. -/
theorem findEnd_eq_some {q : Bytes} (b : Bytes)
    (hfirst : ∀ q' t, q ++ crlf2 = q' ++ (crlf2 ++ t) → t = []) :
    findEnd (q ++ (crlf2 ++ b)) = some q.length := by
  rw [findEnd, List.find?_range_eq_some]
  refine ⟨?_, ?_, ?_⟩
  · rw [List.drop_left]
    rfl
  · rw [List.mem_range]
    simp [crlf2]
    omega
  · intro j hj
    rw [Bool.not_eq_true', decide_eq_false_iff_not]
    intro htake
    have hlen : 4 < (q.drop j ++ crlf2).length := by
      simp [crlf2]
      omega
    rw [List.drop_append_of_le_length (Nat.le_of_lt hj), ← List.append_assoc,
      List.take_append_of_le_length (Nat.le_of_lt hlen)] at htake
    have hsplit : q ++ crlf2 = q.take j ++ (crlf2 ++ (q.drop j ++ crlf2).drop 4) := by
      calc q ++ crlf2 = q.take j ++ (q.drop j ++ crlf2) := by
            rw [← List.append_assoc, List.take_append_drop]
        _ = q.take j ++ ((q.drop j ++ crlf2).take 4 ++ (q.drop j ++ crlf2).drop 4) := by
            rw [List.take_append_drop]
        _ = q.take j ++ (crlf2 ++ (q.drop j ++ crlf2).drop 4) := by rw [htake]
    have hnil := congrArg List.length (hfirst _ _ hsplit)
    rw [List.length_drop, List.length_nil] at hnil
    omega

section Records
variable (shown : List Shown) (count : UInt32) {record : Bytes}

theorem recordStep_started :
    recordStep ⟨true, shown, count⟩ record =
      ⟨true, shown ++ (cstr record).map .body, count + UInt32.ofNat record.length⟩ := by
  rw [recordStep, cstr_append_zero]
  rfl

theorem recordStep_none (h : findEnd record = none) :
    recordStep ⟨false, shown, count⟩ record =
      ⟨false, shown ++ (cstr record).map .head, count⟩ := by
  rw [recordStep, h, cstr_append_zero]
  rfl

/-- The zero behind the end of the head hides what follows in the record. -/
theorem recordStep_some {i : Nat} (h : findEnd record = some i) :
    recordStep ⟨false, shown, count⟩ record =
      ⟨true, shown ++ (cstr (record.take (i + 4))).map .head,
        count + UInt32.ofNat (record.length - (i + 4))⟩ := by
  have hle := findEnd_le h
  have hset : (record ++ [0]).set (i + 4) 0 =
      record.take (i + 4) ++ 0 :: (record ++ [0]).drop (i + 4 + 1) := by
    rw [List.set_eq_take_append_cons_drop, if_pos (by simp; omega),
      List.take_append_of_le_length hle]
  have hzero : ((record ++ [0]).set (i + 4) 0)[i + 4]? = some 0 :=
    List.getElem?_set_self (by simp; omega)
  have hzero' : (((record ++ [0]).set (i + 4) 0).set record.length 0)[i + 4]? = some 0 := by
    rw [List.getElem?_set]
    split
    · simp
    · exact hzero
  rw [recordStep, h]
  simp only [Bool.false_eq_true, if_false]
  split
  · next hlt =>
      rw [cstr_drop hzero', hset, cstr_append_zero, List.map_nil, List.append_nil]
  · next hlt =>
      have hend : record.length - (i + 4) = 0 := by omega
      rw [hset, cstr_append_zero, hend]
      simp

/-- A record of which the head is not over adds nothing to the body. -/
theorem bodyOf_recordStep :
    bodyOf (recordStep ⟨false, shown, count⟩ record).shown = bodyOf shown := by
  cases h : findEnd record with
  | none => simp [recordStep_none shown count h]
  | some i => simp [recordStep_some shown count h]

end Records

/-- A record adds no more than its length to the body. -/
theorem length_bodyOf_recordStep (st : TlsState) (record : Bytes) :
    (bodyOf (recordStep st record).shown).length ≤ (bodyOf st.shown).length + record.length := by
  obtain ⟨started, shown, count⟩ := st
  cases started with
  | false =>
      rw [bodyOf_recordStep]
      exact Nat.le_add_right _ _
  | true =>
      have hle := length_cstr_le record
      rw [recordStep_started]
      simp only [bodyOf_append, bodyOf_map_body, List.length_append]
      omega

theorem length_bodyOf_foldl (records : List Bytes) (st : TlsState) :
    (bodyOf (records.foldl recordStep st).shown).length ≤
      (bodyOf st.shown).length + records.flatten.length := by
  induction records generalizing st with
  | nil => exact Nat.le_refl _
  | cons record records ih =>
      have hstep := length_bodyOf_recordStep st record
      have hrest := ih (recordStep st record)
      rw [List.foldl_cons, List.flatten_cons, List.length_append]
      omega

/-- Records inside the head. -/
theorem foldl_recordStep_before {records : List Bytes}
    (hzero : ∀ c ∈ records.flatten, c ≠ 0) (hfirst : ∀ q t, records.flatten ≠ q ++ (crlf2 ++ t))
    (shown : List Shown) :
    records.foldl recordStep ⟨false, shown, 0⟩ =
      ⟨false, shown ++ records.flatten.map .head, 0⟩ := by
  induction records generalizing shown with
  | nil => simp
  | cons record records ih =>
      rw [List.flatten_cons] at hzero hfirst
      obtain ⟨hrecord, hrest⟩ := List.forall_mem_append.mp hzero
      have hnone : findEnd record = none := by
        apply findEnd_eq_none
        rintro q t rfl
        exact hfirst q (t ++ records.flatten) (by simp)
      have hlater : ∀ q t, records.flatten ≠ q ++ (crlf2 ++ t) :=
        fun q t h => hfirst (record ++ q) t (by rw [h, List.append_assoc])
      rw [List.foldl_cons, recordStep_none _ _ hnone, cstr_eq_self hrecord, ih hrest hlater]
      simp

/-- Records behind the head. -/
theorem foldl_recordStep_after {records : List Bytes} (hzero : ∀ c ∈ records.flatten, c ≠ 0)
    (shown : List Shown) (count : UInt32) :
    records.foldl recordStep ⟨true, shown, count⟩ =
      ⟨true, shown ++ records.flatten.map .body,
        count + UInt32.ofNat records.flatten.length⟩ := by
  induction records generalizing shown count with
  | nil => simp
  | cons record records ih =>
      obtain ⟨hrecord, hrest⟩ := List.forall_mem_append.mp (List.flatten_cons ▸ hzero)
      rw [List.foldl_cons, recordStep_started, cstr_eq_self hrecord, ih hrest, List.flatten_cons,
        List.length_append, UInt32.ofNat_add, UInt32.add_assoc]
      simp

/-! ## Delivery over `https_get` -/

section Border
variable {r : Response} {before after : List Bytes} {a b : Bytes}

/-- The records in front of the end of the head. -/
theorem foldl_recordStep_head (ha : a ≠ []) (hhead : before.flatten ++ a = r.head) :
    before.foldl recordStep ⟨false, [], 0⟩ = ⟨false, before.flatten.map .head, 0⟩ := by
  refine foldl_recordStep_before ?_ ?_ []
  · intro c hc
    exact r.head_ne_zero c (hhead ▸ List.mem_append_left a hc)
  · intro q t h
    have hsplit : r.head = q ++ (crlf2 ++ (t ++ a)) := by
      rw [← hhead, h]
      simp
    exact ha (List.append_eq_nil_iff.mp (r.endsFirst.first _ _ hsplit)).2

/-- A record with the end of the head: the head is shown, the rest only counted. -/
theorem recordStep_border (hlen : 4 ≤ a.length) (hhead : before.flatten ++ a = r.head)
    (shown : List Shown) :
    recordStep ⟨false, shown, 0⟩ (a ++ b) =
      ⟨true, shown ++ a.map .head, UInt32.ofNat b.length⟩ := by
  obtain ⟨q, rfl⟩ : crlf2 <:+ a :=
    List.suffix_of_suffix_length_le (hhead ▸ r.endsFirst.ends) (List.suffix_append _ _) hlen
  have hfirst : ∀ q' t, q ++ crlf2 = q' ++ (crlf2 ++ t) → t = [] := by
    intro q' t h
    exact r.endsFirst.first (before.flatten ++ q') t (by rw [← hhead, h, List.append_assoc])
  have hzero : ∀ c ∈ q ++ crlf2, c ≠ 0 :=
    fun c hc => r.head_ne_zero c (hhead ▸ List.mem_append_right before.flatten hc)
  have hfour : q.length + 4 = (q ++ crlf2).length := by simp [crlf2]
  have hfound : findEnd (q ++ crlf2 ++ b) = some q.length := by
    rw [List.append_assoc]
    exact findEnd_eq_some b hfirst
  rw [recordStep_some _ _ hfound, hfour, List.take_left, cstr_eq_self hzero, List.length_append,
    Nat.add_sub_cancel_left, UInt32.zero_add]

/-- If the head ends in a record that holds its last four bytes, the screen shows the head and
what came in later records, and everything is counted. -/
theorem foldl_recordStep_border (hlen : 4 ≤ a.length) (hhead : before.flatten ++ a = r.head)
    (hpayload : b ++ after.flatten = r.coding.payload) :
    (before ++ (a ++ b) :: after).foldl recordStep ⟨false, [], 0⟩ =
      ⟨true, r.head.map .head ++ after.flatten.map .body,
        UInt32.ofNat r.coding.payload.length⟩ := by
  have ha : a ≠ [] := List.ne_nil_of_length_pos (Nat.lt_of_lt_of_le (by decide) hlen)
  have hafter : ∀ c ∈ after.flatten, c ≠ 0 :=
    fun c hc => r.payload_ne_zero c (hpayload ▸ List.mem_append_right b hc)
  rw [List.foldl_append, foldl_recordStep_head ha hhead, List.foldl_cons,
    recordStep_border hlen hhead, foldl_recordStep_after hafter, ← List.map_append, hhead,
    ← hpayload, List.length_append, UInt32.ofNat_add]

/-- What the record with the end of the head holds of the body is lost. -/
theorem length_bodyOf_border (b : Bytes) (after : List Bytes) (ha : a ≠ [])
    (hhead : before.flatten ++ a = r.head) :
    (bodyOf ((before ++ (a ++ b) :: after).foldl recordStep ⟨false, [], 0⟩).shown).length ≤
      after.flatten.length := by
  have hrest := length_bodyOf_foldl after
    (recordStep ⟨false, before.flatten.map .head, 0⟩ (a ++ b))
  rw [bodyOf_recordStep, bodyOf_map_head, List.length_nil, Nat.zero_add] at hrest
  rw [List.foldl_append, foldl_recordStep_head ha hhead, List.foldl_cons]
  exact hrest

/-- With fewer than four bytes of the head in its record, the end of the head is not found there,
and the next record is lost. -/
theorem length_bodyOf_short (next : Bytes) (after : List Bytes) (ha : a ≠ [])
    (hlen : a.length < 4) (hhead : before.flatten ++ a = r.head) :
    (bodyOf ((before ++ a :: next :: after).foldl recordStep ⟨false, [], 0⟩).shown).length ≤
      after.flatten.length := by
  have hrest := length_bodyOf_foldl after
    (recordStep ⟨false, before.flatten.map .head ++ (cstr a).map .head, 0⟩ next)
  rw [bodyOf_recordStep, bodyOf_append, bodyOf_map_head, bodyOf_map_head, List.append_nil,
    List.length_nil, Nat.zero_add] at hrest
  rw [List.foldl_append, foldl_recordStep_head ha hhead, List.foldl_cons,
    recordStep_none _ _ (findEnd_short hlen), List.foldl_cons]
  exact hrest

end Border

theorem httpsGet_eq (s : Incoming UInt8) :
    httpsGet s =
      ⟨((s.pieces 4095).foldl recordStep ⟨false, [], 0⟩).shown,
        report ((s.pieces 4095).foldl recordStep ⟨false, [], 0⟩).count⟩ := by
  rw [httpsGet, Incoming.loop_eq_foldl]

theorem flatten_records (r : Response) (ready : Nat → Nat) :
    (Incoming.pieces 4095 ⟨r.wire, ready⟩).flatten = r.wire :=
  Incoming.flatten_pieces (by decide) _

/-- If the head ends in a record that holds its last four bytes and nothing of the body, the
screen shows the head and the body. -/
theorem httpsGet_aligned (r : Response) {ready : Nat → Nat}
    (h : Aligned r.head (Incoming.pieces 4095 ⟨r.wire, ready⟩)) :
    httpsGet ⟨r.wire, ready⟩ =
      ⟨r.head.map .head ++ r.coding.payload.map .body,
        report (UInt32.ofNat r.coding.payload.length)⟩ := by
  obtain ⟨before, last, after, hrecords, hhead, hlen⟩ := h
  have hwire := flatten_records r ready
  have hpayload : after.flatten = r.coding.payload := by
    rw [hrecords, List.flatten_append, List.flatten_cons, ← List.append_assoc, hhead] at hwire
    exact List.append_cancel_left hwire
  have hfold := foldl_recordStep_border (b := []) hlen hhead hpayload
  rw [List.append_nil] at hfold
  rw [httpsGet_eq, hrecords, hfold, hpayload]

/-- Nothing but a head is shown as a head. -/
theorem httpsGet_nil (r : Response) (ready : Nat → Nat) (h : r.coding.payload = []) :
    (httpsGet ⟨r.wire, ready⟩).Delivers [] := by
  have hwire := flatten_records r ready
  obtain ⟨before, a, b, after, hrecords, ha, hhead, hpayload⟩ :=
    Incoming.exists_border r.head_ne_nil hwire
  rw [h, List.append_eq_nil_iff, List.flatten_eq_nil_iff] at hpayload
  obtain ⟨rfl, hnil⟩ := hpayload
  have hafter : after = [] := by
    refine List.eq_nil_iff_forall_not_mem.mpr fun c hc => ?_
    have hmem : c ∈ Incoming.pieces 4095 ⟨r.wire, ready⟩ := by
      rw [hrecords]
      exact List.mem_append_right _ (List.mem_cons_of_mem _ hc)
    exact Incoming.ne_nil_of_mem_pieces 4095 ⟨r.wire, ready⟩ c hmem (hnil c hc)
  subst hafter
  rw [List.append_nil] at hrecords
  have hzero : report 0 = some (Decimal.digits 0) := report_eq.mpr (by decide)
  by_cases hlen : 4 ≤ a.length
  · rw [httpsGet_aligned r ⟨before, a, [], hrecords, hhead, hlen⟩, h]
    exact ⟨⟨r.head, rfl⟩, hzero⟩
  · rw [httpsGet_eq, hrecords, List.foldl_append, foldl_recordStep_head ha hhead, List.foldl_cons,
      recordStep_none _ _ (findEnd_short (Nat.lt_of_not_le hlen)), List.foldl_nil]
    constructor
    · exact ⟨before.flatten ++ cstr a, by simp⟩
    · simpa using hzero

/-- Over HTTP/1.0 a body is delivered if the head ends a record that holds its last four bytes. -/
theorem httpsGet_delivers (r : Response) (ready : Nat → Nat) :
    (httpsGet ⟨r.wire, ready⟩).Delivers r.coding.payload ↔
      r.coding.payload = [] ∨
        Aligned r.head (Incoming.pieces 4095 ⟨r.wire, ready⟩) ∧
          r.coding.payload.length < 10 ^ 9 := by
  constructor
  · intro h
    refine or_iff_not_imp_left.mpr fun hne => ?_
    have hwire := flatten_records r ready
    obtain ⟨before, a, b, after, hrecords, ha, hhead, hpayload⟩ :=
      Incoming.exists_border r.head_ne_nil hwire
    have hpage := h
    rw [httpsGet_eq, hrecords] at hpage
    have hbody : (bodyOf ((before ++ (a ++ b) :: after).foldl recordStep
        ⟨false, [], 0⟩).shown).length = r.coding.payload.length :=
      congrArg List.length hpage.bodyOf_shown
    have hlen := congrArg List.length hpayload
    rw [List.length_append] at hlen
    have hb : b = [] := by
      have hle := length_bodyOf_border b after ha hhead
      exact List.length_eq_zero_iff.mp (by omega)
    subst hb
    rw [List.append_nil] at hrecords hbody
    rw [List.length_nil, Nat.zero_add] at hlen
    have haligned : 4 ≤ a.length := by
      by_contra hshort
      cases after with
      | nil => exact hne (by simpa using hpayload.symm)
      | cons next after =>
          have hnext : next ≠ [] :=
            Incoming.ne_nil_of_mem_pieces 4095 ⟨r.wire, ready⟩ next (by rw [hrecords]; simp)
          have hpos := List.length_pos_of_ne_nil hnext
          have hle := length_bodyOf_short next after ha (by omega) hhead
          rw [List.flatten_cons, List.length_append] at hlen
          omega
    have hends : Aligned r.head (Incoming.pieces 4095 ⟨r.wire, ready⟩) :=
      ⟨before, a, after, hrecords, hhead, haligned⟩
    have hreport := h.report
    rw [httpsGet_aligned r hends] at hreport
    exact ⟨hends, report_eq.mp hreport⟩
  · rintro (hnil | ⟨haligned, hfits⟩)
    · rw [hnil]
      exact httpsGet_nil r ready hnil
    · rw [httpsGet_aligned r haligned]
      exact ⟨⟨r.head, rfl⟩, report_eq.mpr hfits⟩

/-! ## Both paths -/

/-- However the bytes arrive, the body is delivered exactly under the condition of its path. -/
theorem delivered_iff (r : Response) (ready : Nat → Nat) (path : Path) :
    (fetch path ⟨r.wire, ready⟩).Delivers (r.body path) ↔ r.Clean ready path := by
  cases path with
  | http => exact httpGet_delivers r ready
  | https => exact httpsGet_delivers r ready

/-- A page of two bytes in one chunk. -/
def chunkedPage : Response where
  minor := 0x31
  reason := text " OK"
  fields := [text "Transfer-Encoding: chunked"]
  coding := .chunked
    { chunks := [
        { size := text "2"
          ext := ⟨[], by decide, nofun⟩
          data := text "hi"
          nonempty := by decide
          isSize := by decide }]
      last := text "0"
      lastExt := ⟨[], by decide, nofun⟩
      trailer := []
      isLast := by decide
      trailerText := nofun }
  isDigit := by decide
  reasonText := by decide
  reasonStart := fun _ h => (Option.some.inj h).symm
  fieldsText := by decide
  declared := by decide
  entityPrintable := List.all_eq_true.mp (by decide)

/-- A page of two bytes. -/
def plainPage : Response where
  minor := 0x30
  reason := text " OK"
  fields := []
  coding := .identity (text "hi")
  isDigit := by decide
  reasonText := by decide
  reasonStart := fun _ h => (Option.some.inj h).symm
  fieldsText := by decide
  declared := by decide
  entityPrintable := List.all_eq_true.mp (by decide)

/-- A chunk is not decoded, and a body that comes in one record with its head is lost. -/
theorem not_every_body_delivered :
    (¬ ∀ (r : Response) (ready : Nat → Nat),
      (fetch .http ⟨r.wire, ready⟩).Delivers (r.body .http)) ∧
    ¬ ∀ (r : Response) (ready : Nat → Nat),
      (fetch .https ⟨r.wire, ready⟩).Delivers (r.body .https) := by
  constructor
  · intro h
    cases ((httpGet_delivers chunkedPage fun _ => 0).mp (h chunkedPage _)).1
  · intro h
    have hone : Incoming.pieces 4095 ⟨plainPage.wire, fun _ => 4094⟩ = [plainPage.wire] := by
      rw [Incoming.pieces, if_neg (by decide), Incoming.pieces, if_pos (by decide)]
      rfl
    rcases (httpsGet_delivers plainPage fun _ => 4094).mp (h plainPage _) with hnil | ⟨hends, -⟩
    · exact absurd hnil (by decide)
    · obtain ⟨before, last, after, hrecords, hhead, -⟩ := hends
      rw [hone] at hrecords
      cases before with
      | nil =>
          obtain rfl := (List.cons.inj hrecords).1
          exact absurd hhead (by decide)
      | cons record before => simp at hrecords

end OriaOS.Http
