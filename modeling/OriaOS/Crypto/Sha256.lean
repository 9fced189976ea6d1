import OriaOS.Lib.Sha2

/-!
# SHA-256 in pieces

`sha256_init`, `sha256_update` and `sha256_final` on a context that keeps the bytes of a block that
is not whole yet, and the hash of what was put in, in whatever pieces and with copies taken on the
way.
-/

namespace OriaOS.Crypto

open OriaOS.Lib OriaOS.Lib.Blocks

variable {m : List UInt8}

/-! ## The code -/

/-- `SHA_K` -/
def shaK : List UInt32 :=
  [0x428a2f98, 0x71374491, 0xb5c0fbcf, 0xe9b5dba5,
    0x3956c25b, 0x59f111f1, 0x923f82a4, 0xab1c5ed5,
    0xd807aa98, 0x12835b01, 0x243185be, 0x550c7dc3,
    0x72be5d74, 0x80deb1fe, 0x9bdc06a7, 0xc19bf174,
    0xe49b69c1, 0xefbe4786, 0x0fc19dc6, 0x240ca1cc,
    0x2de92c6f, 0x4a7484aa, 0x5cb0a9dc, 0x76f988da,
    0x983e5152, 0xa831c66d, 0xb00327c8, 0xbf597fc7,
    0xc6e00bf3, 0xd5a79147, 0x06ca6351, 0x14292967,
    0x27b70a85, 0x2e1b2138, 0x4d2c6dfc, 0x53380d13,
    0x650a7354, 0x766a0abb, 0x81c2c92e, 0x92722c85,
    0xa2bfe8a1, 0xa81a664b, 0xc24b8b70, 0xc76c51a3,
    0xd192e819, 0xd6990624, 0xf40e3585, 0x106aa070,
    0x19a4c116, 0x1e376c08, 0x2748774c, 0x34b0bcb5,
    0x391c0cb3, 0x4ed8aa4a, 0x5b9cca4f, 0x682e6ff3,
    0x748f82ee, 0x78a5636f, 0x84c87814, 0x8cc70208,
    0x90befffa, 0xa4506ceb, 0xbef9a3f7, 0xc67178f2]

def RR32 (x n : UInt32) : UInt32 := (x >>> n) ||| (x <<< (32 - n))

def CH (e f g : UInt32) : UInt32 := (e &&& f) ^^^ (~~~e &&& g)

def MAJ (a b c : UInt32) : UInt32 := (a &&& b) ^^^ (a &&& c) ^^^ (b &&& c)

def S0 (a : UInt32) : UInt32 := RR32 a 2 ^^^ RR32 a 13 ^^^ RR32 a 22

def S1 (e : UInt32) : UInt32 := RR32 e 6 ^^^ RR32 e 11 ^^^ RR32 e 25

def s0 (w : UInt32) : UInt32 := RR32 w 7 ^^^ RR32 w 18 ^^^ (w >>> 3)

def s1 (w : UInt32) : UInt32 := RR32 w 17 ^^^ RR32 w 19 ^^^ (w >>> 10)

/-- `sha256_compress`, the first sixteen words of `W`. -/
def blockWords (blk : List UInt8) : List UInt32 :=
  (List.range 16).map fun i =>
    (blk.getD (i * 4) 0).toUInt32 <<< 24 ||| (blk.getD (i * 4 + 1) 0).toUInt32 <<< 16 |||
      (blk.getD (i * 4 + 2) 0).toUInt32 <<< 8 ||| (blk.getD (i * 4 + 3) 0).toUInt32

/-- `sha256_compress`, the next word of `W`. -/
def nextWord (W : List UInt32) (i : Nat) : List UInt32 :=
  W ++ [s1 (W.getD (i - 2) 0) + W.getD (i - 7) 0 + s0 (W.getD (i - 15) 0) + W.getD (i - 16) 0]

/-- `sha256_compress`, one round on `a` to `h`. -/
def roundStep (W : List UInt32) (v : Sha2.Words) (i : Nat) : Sha2.Words :=
  let T1 := v.h + S1 v.e + CH v.e v.f v.g + shaK.getD i 0 + W.getD i 0
  let T2 := S0 v.a + MAJ v.a v.b v.c
  { h := v.g, g := v.f, f := v.e, e := v.d + T1, d := v.c, c := v.b, b := v.a, a := T1 + T2 }

/-- `sha256_compress` -/
def sha256Compress (st : Vector UInt32 8) (blk : List UInt8) : Vector UInt32 8 :=
  let W := (List.range' 16 48).foldl nextWord (blockWords blk)
  let v := (List.range 64).foldl (roundStep W)
    ⟨st[0], st[1], st[2], st[3], st[4], st[5], st[6], st[7]⟩
  #v[st[0] + v.a, st[1] + v.b, st[2] + v.c, st[3] + v.d, st[4] + v.e, st[5] + v.f, st[6] + v.g,
    st[7] + v.h]

/-- `Sha256` -/
structure Sha256 where
  state : Vector UInt32 8
  count : UInt64
  buf : Vector UInt8 64

/-- `sha256_init` -/
def sha256Init (ctx : Sha256) : Sha256 :=
  { ctx with
    state := #v[0x6a09e667, 0xbb67ae85, 0x3c6ef372, 0xa54ff53a, 0x510e527f, 0x9b05688c,
      0x1f83d9ab, 0x5be0cd19]
    count := 0 }

/-- Bytes copied into `buf` from a position on. -/
def fillBuf (buf : Vector UInt8 64) (pos : Nat) : List UInt8 → Vector UInt8 64
  | [] => buf
  | b :: data => fillBuf (buf.setIfInBounds pos b) (pos + 1) data

/-- `sha256_update`, the loop over whole blocks: the state and the data that is left. The data is
more than enough fuel. -/
def wholeBlocks : Nat → Vector UInt32 8 → List UInt8 → Vector UInt32 8 × List UInt8
  | 0, st, data => (st, data)
  | fuel + 1, st, data =>
      if 64 ≤ data.length then wholeBlocks fuel (sha256Compress st (data.take 64)) (data.drop 64)
      else (st, data)

/-- `sha256_update` behind the block that was begun. -/
def updateWhole (ctx : Sha256) (data : List UInt8) : Sha256 :=
  let (state, data) := wholeBlocks data.length ctx.state data
  { ctx with state := state, buf := fillBuf ctx.buf 0 data }

/-- `sha256_update` -/
def sha256Update (ctx : Sha256) (data : List UInt8) : Sha256 :=
  let rem := (ctx.count &&& 63).toNat
  let ctx := { ctx with count := ctx.count + UInt64.ofNat data.length }
  if rem ≠ 0 then
    let fill := min (64 - rem) data.length
    let ctx := { ctx with buf := fillBuf ctx.buf rem (data.take fill) }
    let ctx := if rem + fill = 64 then
      { ctx with state := sha256Compress ctx.state ctx.buf.toList } else ctx
    updateWhole ctx (data.drop fill)
  else updateWhole ctx data

/-- `sha256_final`, the zeros of the padding. -/
def padZeros : Nat → Sha256 → Sha256
  | 0, ctx => ctx
  | fuel + 1, ctx => if ctx.count &&& 63 ≠ 56 then padZeros fuel (sha256Update ctx [0]) else ctx

/-- `len_enc`, filled from its end. -/
def lenEnc (bitCount : UInt64) : List UInt8 :=
  ((List.range 8).foldl (fun (enc, n) _ => (n.toUInt8 :: enc, n >>> 8)) ([], bitCount)).1

/-- `sha256_final`: the digest, and the context it leaves. -/
def sha256Final (ctx : Sha256) : List UInt8 × Sha256 :=
  let bitCount := ctx.count * 8
  let ctx := padZeros 64 (sha256Update ctx [0x80])
  let ctx := sha256Update ctx (lenEnc bitCount)
  (ctx.state.toList.flatMap fun w : UInt32 =>
    [(w >>> 24).toUInt8, (w >>> 16).toUInt8, (w >>> 8).toUInt8, w.toUInt8], ctx)

/-- A context on the stack. -/
def fresh : Sha256 := ⟨Vector.replicate 8 0, 0, Vector.replicate 64 0⟩

/-- `sha256` -/
def sha256 (data : List UInt8) : List UInt8 :=
  (sha256Final (sha256Update (sha256Init fresh) data)).1

/-! ## The compression function -/

/-- The words of the state. -/
def words (st : Vector UInt32 8) : Sha2.Words :=
  ⟨st[0], st[1], st[2], st[3], st[4], st[5], st[6], st[7]⟩

theorem shaK_eq : ∀ t < 64, shaK.getD t 0 = Sha2.K t := by decide +kernel

theorem getD_blockWords (blk : List UInt8) {t : Nat} (h : t < 16) :
    (blockWords blk).getD t 0 = Sha2.blockWord blk t := by
  rw [List.getD_eq_getElem _ _ (by simpa [blockWords] using h)]
  simp only [blockWords, List.getElem_map, List.getElem_range, Sha2.blockWord, Nat.mul_comm t 4]

/-- The words computed so far are those of the schedule. -/
theorem schedule_foldl (blk : List UInt8) (n : Nat) :
    ((List.range' 16 n).foldl nextWord (blockWords blk)).length = 16 + n ∧
      ∀ t < 16 + n, ((List.range' 16 n).foldl nextWord (blockWords blk)).getD t 0
        = Sha2.schedule (Sha2.blockWord blk) t := by
  induction n with
  | zero =>
      refine ⟨by simp [blockWords], ?_⟩
      intro t ht
      rw [Sha2.schedule_of_lt ht]
      exact getD_blockWords blk ht
  | succ n ih =>
      obtain ⟨hlen, hwords⟩ := ih
      rw [List.range'_concat, List.foldl_append, List.foldl_cons, List.foldl_nil, Nat.one_mul]
      refine ⟨by rw [nextWord, List.length_append, hlen]; rfl, ?_⟩
      intro t ht
      rcases Nat.lt_or_ge t (16 + n) with hlt | hge
      · rw [nextWord, List.getD_append _ _ _ _ (by omega)]
        exact hwords t hlt
      · obtain rfl : t = 16 + n := by omega
        rw [nextWord, List.getD_append_right _ _ _ _ (by omega), hlen, Nat.sub_self,
          List.getD_cons_zero, hwords _ (by omega), hwords _ (by omega), hwords _ (by omega),
          hwords _ (by omega), Sha2.schedule_of_le (Nat.le_add_right 16 n)]
        rfl

theorem rounds_foldl {W : List UInt32} {M : Nat → UInt32} {v : Sha2.Words} {n : Nat} (hn : n ≤ 64)
    (hW : ∀ t < 64, W.getD t 0 = M t) :
    (List.range n).foldl (roundStep W) v = Sha2.rounds M v n := by
  induction n with
  | zero => rfl
  | succ n ih =>
      rw [List.range_succ, List.foldl_append, ih (Nat.le_of_succ_le hn), List.foldl_cons,
        List.foldl_nil, roundStep, hW n hn, shaK_eq n hn]
      rfl

theorem words_sha256Compress (st : Vector UInt32 8) (blk : List UInt8) :
    words (sha256Compress st blk) = Sha2.compress (words st) blk := by
  have hW := (schedule_foldl blk 48).2
  have hrounds := rounds_foldl (v := words st) (Nat.le_refl 64) hW
  rw [Sha2.compress, ← hrounds]
  rfl

/-! ## What a context stands for -/

theorem take_fillBuf (buf : Vector UInt8 64) (pos : Nat) (data : List UInt8)
    (h : pos + data.length ≤ 64) :
    (fillBuf buf pos data).toList.take (pos + data.length) = buf.toList.take pos ++ data := by
  induction data generalizing buf pos with
  | nil => simp [fillBuf]
  | cons b data ih =>
      rw [List.length_cons] at h ⊢
      have hpos : pos < buf.toList.length := by
        rw [Vector.length_toList]
        omega
      have hset : (buf.setIfInBounds pos b).toList.take (pos + 1) = buf.toList.take pos ++ [b] := by
        rw [Vector.toList_setIfInBounds, List.take_add_one, List.take_set_of_le (Nat.le_refl pos),
          List.getElem?_set_self hpos]
        rfl
      rw [fillBuf, Nat.add_comm data.length 1, ← Nat.add_assoc, ih _ _ (by omega), hset,
        List.append_assoc]
      rfl

/-- The whole blocks go into the state, the rest stays. -/
theorem wholeBlocks_eq {fuel : Nat} (st : Vector UInt32 8) {data : List UInt8}
    (h : data.length ≤ fuel) :
    words (wholeBlocks fuel st data).1 = absorb 64 Sha2.compress (words st) data ∧
      (wholeBlocks fuel st data).2 = rest 64 data := by
  induction fuel generalizing st data with
  | zero =>
      obtain rfl := List.length_eq_zero_iff.mp (Nat.le_zero.mp h)
      simp [wholeBlocks]
  | succ fuel ih =>
      rw [wholeBlocks]
      by_cases hle : 64 ≤ data.length
      · have hlen : (data.drop 64).length ≤ fuel := by
          rw [List.length_drop]
          omega
        obtain ⟨hstate, hrest⟩ := ih (sha256Compress st (data.take 64)) hlen
        rw [if_pos hle, hstate, hrest, words_sha256Compress]
        exact ⟨(absorb_of_le (by decide) hle).symm, (rest_of_le (by decide) hle).symm⟩
      · rw [if_neg hle, absorb_of_lt (Nat.not_le.mp hle), rest_of_lt (Nat.not_le.mp hle)]
        exact ⟨rfl, rfl⟩

/-- The context has taken in the message: the state its whole blocks, `buf` the rest. -/
structure Absorbed (ctx : Sha256) (m : List UInt8) : Prop where
  state : words ctx.state = absorb 64 Sha2.compress Sha2.initial m
  count : ctx.count = UInt64.ofNat m.length
  buf : ctx.buf.toList.take (m.length % 64) = rest 64 m

theorem initial_eq :
    Sha2.Words.mk 0x6a09e667 0xbb67ae85 0x3c6ef372 0xa54ff53a 0x510e527f 0x9b05688c 0x1f83d9ab
      0x5be0cd19 = Sha2.initial := by
  have hH0 : ∀ j < 8, [0x6a09e667, 0xbb67ae85, 0x3c6ef372, 0xa54ff53a, 0x510e527f, 0x9b05688c,
      0x1f83d9ab, 0x5be0cd19].getD j 0 = Sha2.H0 j := by decide +kernel
  rw [Sha2.initial, ← hH0 0 (by decide), ← hH0 1 (by decide), ← hH0 2 (by decide),
    ← hH0 3 (by decide), ← hH0 4 (by decide), ← hH0 5 (by decide), ← hH0 6 (by decide),
    ← hH0 7 (by decide)]
  rfl

theorem absorbed_sha256Init (ctx : Sha256) : Absorbed (sha256Init ctx) [] where
  state := by
    rw [absorb_nil]
    exact initial_eq
  count := rfl
  buf := by simp

theorem Absorbed.rem {ctx : Sha256} (h : Absorbed ctx m) :
    (ctx.count &&& 63).toNat = m.length % 64 := by
  rw [h.count, UInt64.toNat_and, UInt64.toNat_ofNat']
  change m.length % 2 ^ 64 &&& (2 ^ 6 - 1) = m.length % 64
  rw [Nat.and_two_pow_sub_one_eq_mod]
  omega

theorem Absorbed.count_append {ctx : Sha256} (h : Absorbed ctx m) (data : List UInt8) :
    ctx.count + UInt64.ofNat data.length = UInt64.ofNat (m ++ data).length := by
  rw [h.count, List.length_append, UInt64.ofNat_add]

/-- Behind a block that is whole. -/
theorem absorbed_updateWhole {ctx : Sha256} {data : List UInt8}
    (hstate : words ctx.state = absorb 64 Sha2.compress Sha2.initial m) (hrest : rest 64 m = [])
    (hcount : ctx.count = UInt64.ofNat (m ++ data).length) :
    Absorbed (updateWhole ctx data) (m ++ data) := by
  obtain ⟨hblocks, hleft⟩ := wholeBlocks_eq ctx.state (Nat.le_refl data.length)
  have hlen : (rest 64 data).length = data.length % 64 := length_rest 64 data
  have hresidue : (m ++ data).length % 64 = data.length % 64 := by
    have hzero := congrArg List.length hrest
    rw [length_rest, List.length_nil] at hzero
    rw [List.length_append]
    omega
  constructor
  · rw [absorb_append (by decide), hrest, List.nil_append, ← hstate]
    exact hblocks
  · exact hcount
  · change (fillBuf ctx.buf 0 (wholeBlocks data.length ctx.state data).2).toList.take _ = _
    have hfill := take_fillBuf ctx.buf 0 (rest 64 data) (by
      rw [hlen]
      omega)
    rw [hleft, hresidue, ← hlen, ← Nat.zero_add (rest 64 data).length, hfill,
      rest_append (by decide), hrest]
    rfl

theorem Absorbed.update {ctx : Sha256} (h : Absorbed ctx m) (data : List UInt8) :
    Absorbed (sha256Update ctx data) (m ++ data) := by
  have hlen : (rest 64 m).length = m.length % 64 := length_rest 64 m
  have hbuf := h.buf
  rw [sha256Update, h.rem]
  by_cases hrem : m.length % 64 = 0
  · rw [if_neg (not_not.mpr hrem)]
    apply absorbed_updateWhole
    · exact h.state
    · exact List.length_eq_zero_iff.mp (hlen.trans hrem)
    · exact h.count_append data
  rw [if_pos hrem]
  obtain ⟨fill, hfill⟩ : ∃ fill, fill = min (64 - m.length % 64) data.length := ⟨_, rfl⟩
  simp only [← hfill]
  have htake : (data.take fill).length = fill := by
    rw [List.length_take]
    omega
  have hfilled := take_fillBuf ctx.buf (m.length % 64) (data.take fill) (by omega)
  rw [htake, hbuf] at hfilled
  have hsplit : m ++ data.take fill ++ data.drop fill = m ++ data := by
    rw [List.append_assoc, List.take_append_drop]
  by_cases hwhole : m.length % 64 + fill = 64
  · -- The block that was begun is whole.
    have hblock : (fillBuf ctx.buf (m.length % 64) (data.take fill)).toList
        = rest 64 m ++ data.take fill := by
      rw [hwhole, List.take_of_length_le (by rw [Vector.length_toList])] at hfilled
      exact hfilled
    have hlength : (rest 64 m ++ data.take fill).length = 64 := by
      rw [List.length_append, hlen, htake, hwhole]
    rw [if_pos hwhole, ← hsplit]
    apply absorbed_updateWhole
    · rw [words_sha256Compress, h.state, hblock, absorb_append (by decide),
        absorb_of_le (by decide) hlength.ge, List.take_of_length_le hlength.le,
        List.drop_eq_nil_of_le hlength.le, absorb_nil]
    · rw [rest_append (by decide), rest_of_le (by decide) hlength.ge,
        List.drop_eq_nil_of_le hlength.le, rest_nil]
    · rw [hsplit]
      exact h.count_append data
  · -- All the data is in the block that was begun.
    have hall : fill = data.length := by omega
    have hshort : (rest 64 m ++ data).length < 64 := by
      rw [List.length_append]
      omega
    rw [hall, List.take_of_length_le (Nat.le_refl _)] at hfilled
    rw [if_neg hwhole, hall, List.drop_eq_nil_of_le (Nat.le_refl _),
      List.take_of_length_le (Nat.le_refl _)]
    constructor
    · rw [absorb_append (by decide), absorb_of_lt hshort]
      exact h.state
    · exact h.count_append data
    · rw [rest_append (by decide), rest_of_lt hshort, ← hfilled]
      congr 1
      rw [List.length_append]
      omega

/-! ## The digest -/

/-- One zero after the other until the length field fits exactly. -/
theorem Absorbed.padZeros {ctx : Sha256} (h : Absorbed ctx m) {k fuel : Nat} (hk : k < 64)
    (hfuel : k ≤ fuel) (hend : (m.length + k) % 64 = 56) :
    Absorbed (padZeros fuel ctx) (m ++ List.replicate k 0) ∧
      (padZeros fuel ctx).count &&& 63 = 56 := by
  have htest : ctx.count &&& 63 = 56 ↔ m.length % 64 = 56 := by
    rw [← h.rem, ← UInt64.toNat_inj]
    rfl
  induction k generalizing ctx m fuel with
  | zero =>
      have hstop := htest.mpr hend
      have hzeros : Crypto.padZeros fuel ctx = ctx := by
        cases fuel with
        | zero => rfl
        | succ fuel => exact if_neg (not_not.mpr hstop)
      rw [hzeros, List.replicate_zero, List.append_nil]
      exact ⟨h, hstop⟩
  | succ k ih =>
      obtain ⟨fuel, rfl⟩ : ∃ f, fuel = f + 1 := Nat.exists_eq_succ_of_ne_zero (by omega)
      have hmore : ¬ctx.count &&& 63 = 56 := by
        rw [htest]
        omega
      have hnext := h.update [0]
      rw [Crypto.padZeros, if_pos hmore, List.replicate_succ, List.append_cons]
      apply ih hnext (by omega) (Nat.le_of_succ_le_succ hfuel)
      · rw [List.length_append, List.length_singleton, Nat.add_assoc, Nat.add_comm 1]
        exact hend
      · rw [← hnext.rem, ← UInt64.toNat_inj]
        rfl

/-- The eight bytes of the length, in the order in which they are filled. -/
theorem lenEnc_toList (n : UInt64) :
    lenEnc n = [(n >>> 8 >>> 8 >>> 8 >>> 8 >>> 8 >>> 8 >>> 8).toUInt8,
      (n >>> 8 >>> 8 >>> 8 >>> 8 >>> 8 >>> 8).toUInt8, (n >>> 8 >>> 8 >>> 8 >>> 8 >>> 8).toUInt8,
      (n >>> 8 >>> 8 >>> 8 >>> 8).toUInt8, (n >>> 8 >>> 8 >>> 8).toUInt8, (n >>> 8 >>> 8).toUInt8,
      (n >>> 8).toUInt8, n.toUInt8] := rfl

theorem lenEnc_eq (len : Nat) : lenEnc (UInt64.ofNat len * 8) = Sha2.be64 (8 * len) := by
  have hbits : (UInt64.ofNat len * 8).toNat = 8 * len % 2 ^ 64 := by
    rw [UInt64.toNat_mul, UInt64.toNat_ofNat', Nat.mul_comm]
    exact Nat.mul_mod_mod 8 len (2 ^ 64)
  apply List.ext_getElem
  · rfl
  · intro i hi hi'
    rw [Sha2.length_be64] at hi'
    simp only [lenEnc_toList, Sha2.be64, List.getElem_map, List.getElem_range]
    apply UInt8.toNat_inj.mp
    interval_cases i
    all_goals
      simp only [List.getElem_cons_zero, List.getElem_cons_succ, UInt64.toNat_toUInt8,
        UInt64.toNat_shiftRight, hbits, Nat.shiftRight_eq_div_pow, UInt8.toNat_ofNat',
        UInt64.reduceToNat, Nat.reduceMod, Nat.reducePow, Nat.reduceSub]
      omega

/-- The words of the state, one after the other. -/
theorem toList_eq (st : Vector UInt32 8) :
    st.toList = [st[0], st[1], st[2], st[3], st[4], st[5], st[6], st[7]] := by
  apply List.ext_getElem
  · rw [Vector.length_toList]
    rfl
  · intro i hi hi'
    rw [Vector.getElem_toList]
    change i < 8 at hi'
    interval_cases i <;> rfl

theorem Absorbed.final {ctx : Sha256} (h : Absorbed ctx m) :
    (sha256Final ctx).1 = Sha2.sha256 m := by
  have hfill := Sha2.zeros_fill m.length
  have hone := h.update [0x80]
  have hlt : Sha2.zeros m.length < 64 := Nat.mod_lt _ (by decide)
  obtain ⟨hzeros, -⟩ := hone.padZeros hlt hlt.le (by
    rw [List.length_append]
    exact hfill)
  have hlength := (hzeros.update (lenEnc (ctx.count * 8))).state
  rw [h.count, lenEnc_eq] at hlength
  rw [Sha2.sha256, Sha2.pad, ← hlength, ← lenEnc_eq, ← h.count, sha256Final, toList_eq]
  rfl

/-- What a call of `sha256` computes. -/
theorem sha256_eq (data : List UInt8) : sha256 data = Sha2.sha256 data :=
  ((absorbed_sha256Init fresh).update data).final

example : (sha256 [0x61, 0x62, 0x63]).take 4 = [0xba, 0x78, 0x16, 0xbf] := by decide +kernel

theorem Absorbed.updates {ctx : Sha256} (h : Absorbed ctx m) (pieces : List (List UInt8)) :
    Absorbed (pieces.foldl sha256Update ctx) (m ++ pieces.flatten) := by
  induction pieces generalizing ctx m with
  | nil =>
      rw [List.flatten_nil, List.append_nil]
      exact h
  | cons piece pieces ih =>
      rw [List.foldl_cons, List.flatten_cons, ← List.append_assoc]
      exact ih (h.update piece)

/-! ## Contexts and their copies -/

/-- A call on one of several contexts, or the copy of one into another. -/
inductive Call (κ : Type)
  | init (k : κ)
  | update (k : κ) (data : List UInt8)
  | copy (dst src : κ)
  | final (k : κ)

section Calls
variable {κ : Type} [DecidableEq κ]

/-- The contexts after a call, and the digest it gives. -/
def Call.run (ctxs : κ → Sha256) : Call κ → (κ → Sha256) × List (List UInt8)
  | init k => (Function.update ctxs k (sha256Init (ctxs k)), [])
  | update k data => (Function.update ctxs k (sha256Update (ctxs k) data), [])
  | copy dst src => (Function.update ctxs dst (ctxs src), [])
  | final k => (Function.update ctxs k (sha256Final (ctxs k)).2, [(sha256Final (ctxs k)).1])

/-- The digests of a run. -/
def digests (ctxs : κ → Sha256) : List (Call κ) → List (List UInt8)
  | [] => []
  | call :: calls => (call.run ctxs).2 ++ digests (call.run ctxs).1 calls

/-- What was put into each context since it was initialised, none where it is not in use. -/
def Call.record (strings : κ → Option (List UInt8)) : Call κ → κ → Option (List UInt8)
  | init k => Function.update strings k (some [])
  | update k data => Function.update strings k ((strings k).map (· ++ data))
  | copy dst src => Function.update strings dst (strings src)
  | final k => Function.update strings k none

/-- The hash of what was put into a context at each `final`, none where it is not in use. -/
def hashes (strings : κ → Option (List UInt8)) : List (Call κ) → List (Option (List UInt8))
  | [] => []
  | .final k :: calls =>
      (strings k).map Sha2.sha256 :: hashes ((Call.final k).record strings) calls
  | call :: calls => hashes (call.record strings) calls

/-- Each context has taken in what was put into it. -/
def Tracks (ctxs : κ → Sha256) (strings : κ → Option (List UInt8)) : Prop :=
  ∀ k, ∀ m ∈ strings k, Absorbed (ctxs k) m

theorem Tracks.set {ctxs : κ → Sha256} {strings : κ → Option (List UInt8)}
    (h : Tracks ctxs strings) {k : κ} {ctx : Sha256} {string : Option (List UInt8)}
    (hctx : ∀ m ∈ string, Absorbed ctx m) :
    Tracks (Function.update ctxs k ctx) (Function.update strings k string) := by
  intro j
  by_cases hj : j = k
  · subst hj
    rwa [Function.update_self, Function.update_self]
  · rw [Function.update_of_ne hj, Function.update_of_ne hj]
    exact h j

theorem Tracks.run {ctxs : κ → Sha256} {strings : κ → Option (List UInt8)}
    (h : Tracks ctxs strings) (call : Call κ) :
    Tracks (call.run ctxs).1 (call.record strings) := by
  cases call with
  | init k =>
      apply h.set
      rintro _ ⟨⟩
      exact absorbed_sha256Init _
  | update k data =>
      apply h.set
      intro m' hm'
      obtain ⟨m, hm, rfl⟩ := Option.map_eq_some_iff.mp hm'
      exact (h k m hm).update data
  | copy dst src => exact h.set (h src)
  | final k => exact h.set nofun

/-- Every digest is the hash of what was put into its context, whatever happens to the others. -/
theorem digests_hashes {ctxs : κ → Sha256} {strings : κ → Option (List UInt8)}
    (h : Tracks ctxs strings) (calls : List (Call κ)) :
    List.Forall₂ (fun d hash => ∀ e ∈ hash, d = e) (digests ctxs calls) (hashes strings calls) := by
  induction calls generalizing ctxs strings with
  | nil => exact .nil
  | cons call calls ih =>
      have hrest := ih (h.run call)
      cases call with
      | init k => exact hrest
      | update k data => exact hrest
      | copy dst src => exact hrest
      | final k =>
          refine .cons ?_ hrest
          intro e he
          obtain ⟨m, hm, rfl⟩ := Option.map_eq_some_iff.mp he
          exact (h k m hm).final

end Calls

/-- However a string is cut, the digest is its hash; and of several contexts, of which some are
copies of others, each gives the hash of its own string. -/
theorem sha256_stream :
    (∀ (pieces : List (List UInt8)) (ctx : Sha256),
      (sha256Final (pieces.foldl sha256Update (sha256Init ctx))).1
        = Sha2.sha256 pieces.flatten) ∧
    ∀ (κ : Type) [DecidableEq κ] (ctxs : κ → Sha256) (calls : List (Call κ)),
      List.Forall₂ (fun d hash => ∀ e ∈ hash, d = e) (digests ctxs calls)
        (hashes (fun _ => none) calls) := by
  refine ⟨?_, ?_⟩
  · intro pieces ctx
    exact ((absorbed_sha256Init ctx).updates pieces).final
  · intro κ _ ctxs calls
    exact digests_hashes nofun calls

end OriaOS.Crypto
