import Mathlib
import OriaOS.Lib.Stride
import OriaOS.Tls.Gcm

/-!
# Encryption in place

`aes128gcm_encrypt` and `aes128gcm_decrypt` on memory, with lengths of 32 bits. `gcm_ctr` counts
the bytes that are done in strides of 16. For a buffer shorter than its last whole stride both
functions are those on texts; for a longer one the counter wraps and the loop does not end.
-/

namespace OriaOS.Tls.InPlace

open OriaOS.Lib

/-- Memory from a pointer on. -/
abbrev Buffer := Nat → UInt8

/-! ## Counter mode -/

/-- The loop over the bytes of a block, `buf[done + j] ^= keystream[j]`. -/
def xorBytes (keystream : Block) (done : UInt32) (buf : Buffer) (take : Nat) : Buffer :=
  (List.range take).foldl (fun buf j =>
    let p := (done + UInt32.ofNat j).toNat
    Function.update buf p (buf p ^^^ keystream[j]!)) buf

/-- A turn of the loop of `gcm_ctr`: the counter and the buffer behind it. -/
def ctrTurn (aes : Block → Block) (iv : Nonce) (len done : UInt32) (s : UInt32 × Buffer) :
    UInt32 × Buffer :=
  let ctr := s.1 + 1
  let keystream := aes (ctrBlock iv ctr)
  let take := if 16 < len - done then 16 else len - done
  (ctr, xorBytes keystream done s.2 take.toNat)

/-- `gcm_ctr` -/
def gcmCtr (aes : Block → Block) (iv : Nonce) (len ctrStart : UInt32) (fuel : Nat) (buf : Buffer) :
    Option Buffer :=
  (strideLoop 16 len (ctrTurn aes iv len) fuel 0 (ctrStart, buf)).map Prod.snd

/-! ## The tag -/

/-- The blocks that `ghash` reads, the last one filled with zero bytes. -/
def readBlocks (p : Buffer) (len : UInt32) : List Block :=
  (List.range ((len + 15) / 16).toNat).map fun i =>
    let start := UInt32.ofNat i * 16
    let take := if len - start < 16 then len - start else 16
    Vector.ofFn fun j => if j.val < take.toNat then p (start + UInt32.ofNat j).toNat else 0

/-- `ghash` -/
def ghash (h : Block) (aad : Buffer) (aadLen : UInt32) (cipher : Buffer) (clen : UInt32) : Block :=
  let x := (readBlocks aad aadLen).foldl (ghashStep h) zeroBlock
  let x := (readBlocks cipher clen).foldl (ghashStep h) x
  ghashStep h x (lengthBlock aadLen.toNat clen.toNat)

/-- The tag that is stored by one function and compared by the other. -/
def gcmTag (aes : Block → Block) (iv : Nonce) (aad : Buffer) (aadLen : UInt32) (cipher : Buffer)
    (clen : UInt32) : Block :=
  xorBlock (ghash (aes zeroBlock) aad aadLen cipher clen) (aes (ctrBlock iv 1))

/-- `diff` -/
def tagDiff (tag expected : Block) : UInt8 :=
  (List.finRange 16).foldl (fun diff i => diff ||| (tag.get i ^^^ expected.get i)) 0

/-! ## The two functions -/

/-- `aes128gcm_encrypt`: the buffer and the tag. -/
def aes128gcmEncrypt (aes : Block → Block) (iv : Nonce) (aad : Buffer) (aadLen len : UInt32)
    (fuel : Nat) (buf : Buffer) : Option (Buffer × Block) :=
  (gcmCtr aes iv len 1 fuel buf).map fun buf => (buf, gcmTag aes iv aad aadLen buf len)

/-- `aes128gcm_decrypt`: the result and the buffer. -/
def aes128gcmDecrypt (aes : Block → Block) (iv : Nonce) (aad : Buffer) (aadLen len : UInt32)
    (expected : Block) (fuel : Nat) (buf : Buffer) : Option (Int32 × Buffer) :=
  if tagDiff (gcmTag aes iv aad aadLen buf len) expected ≠ 0 then some (-1, buf)
  else (gcmCtr aes iv len 1 fuel buf).map fun buf => (0, buf)

/-! ## The bytes of a buffer -/

section Bytes
variable {aes : Block → Block} {iv : Nonce} {buf : Buffer}

theorem toNat_add_ofNat {x : UInt32} {j : Nat} (h : x.toNat + j < 4294967296) :
    (x + UInt32.ofNat j).toNat = x.toNat + j := by
  rw [UInt32.toNat_add, UInt32.toNat_ofNat', Nat.add_mod_mod]
  exact Nat.mod_eq_of_lt h

/-- The two ways in which the source bounds a block. -/
theorem toNat_take (x : UInt32) : (if 16 < x then 16 else x).toNat = min 16 x.toNat ∧
    (if x < 16 then x else 16).toNat = min 16 x.toNat := by
  have hsixteen : (16 : UInt32).toNat = 16 := rfl
  simp only [UInt32.lt_iff_toNat_lt, hsixteen]
  constructor
  · split <;> omega
  · split <;> omega

theorem xorBytes_succ (keystream : Block) (done : UInt32) (take : Nat) :
    xorBytes keystream done buf (take + 1) =
      Function.update (xorBytes keystream done buf take) (done + UInt32.ofNat take).toNat
        (xorBytes keystream done buf take (done + UInt32.ofNat take).toNat ^^^
          keystream[take]!) := by
  unfold xorBytes
  rw [List.range_succ, List.foldl_append]
  rfl

/-- The loop over the bytes of a block. -/
theorem xorBytes_apply (keystream : Block) {done : UInt32} {take : Nat}
    (hroom : done.toNat + take ≤ 4294967296) (a : Nat) :
    xorBytes keystream done buf take a =
      if done.toNat ≤ a ∧ a < done.toNat + take then buf a ^^^ keystream[a - done.toNat]!
      else buf a := by
  induction take generalizing a with
  | zero =>
      rw [if_neg (by omega)]
      rfl
  | succ take ih =>
      have hplace : (done + UInt32.ofNat take).toNat = done.toNat + take :=
        toNat_add_ofNat (by omega)
      rw [xorBytes_succ, hplace]
      by_cases ha : a = done.toNat + take
      · rw [ha, Function.update_self, ih (by omega), if_neg (by omega), if_pos (by omega),
          Nat.add_sub_cancel_left]
      · rw [Function.update_of_ne ha, ih (by omega)]
        exact if_congr (by omega) rfl rfl

/-- The first bytes of a buffer, added to the keystream behind a counter. -/
def masked (aes : Block → Block) (iv : Nonce) (ctr : UInt32) (n : Nat) (buf : Buffer) : Buffer :=
  fun a =>
    if a < n then buf a ^^^ (aes (ctrBlock iv (ctr + 1 + UInt32.ofNat (a / 16))))[a % 16]!
    else buf a

/-- The same bytes are added twice. -/
theorem masked_masked (ctr : UInt32) (n : Nat) :
    masked aes iv ctr n (masked aes iv ctr n buf) = buf := by
  funext a
  unfold masked
  by_cases ha : a < n
  · rw [if_pos ha, if_pos ha, UInt8.xor_assoc, UInt8.xor_self, UInt8.xor_zero]
  · rw [if_neg ha, if_neg ha]

/-- A turn of the loop of `gcm_ctr` adds one block of the keystream. -/
theorem ctrTurn_masked {ctr len done : UInt32} {k : Nat} (hdone : done.toNat = k * 16)
    (hlt : done < len) :
    ctrTurn aes iv len done (ctr + UInt32.ofNat k, masked aes iv ctr (min (k * 16) len.toNat) buf) =
      (ctr + UInt32.ofNat (k + 1), masked aes iv ctr (min ((k + 1) * 16) len.toNat) buf) := by
  have hlt' := UInt32.lt_iff_toNat_lt.mp hlt
  have hlen := len.toNat_lt
  have hleft : (len - done).toNat = len.toNat - done.toNat :=
    UInt32.toNat_sub_of_le _ _ (UInt32.le_of_lt hlt)
  have htake := (toNat_take (len - done)).1
  rw [hleft] at htake
  have hctr : ctr + UInt32.ofNat k + 1 = ctr + UInt32.ofNat (k + 1) := by
    rw [UInt32.ofNat_add, UInt32.add_assoc]
    rfl
  have hblock : ctr + UInt32.ofNat (k + 1) = ctr + 1 + UInt32.ofNat k := by
    rw [← hctr, UInt32.add_assoc, UInt32.add_assoc, UInt32.add_comm 1]
  unfold ctrTurn
  dsimp only
  rw [htake, hctr, Prod.mk.injEq]
  refine ⟨rfl, ?_⟩
  funext a
  rw [xorBytes_apply _ (by omega), hdone]
  unfold masked
  by_cases ha : k * 16 ≤ a ∧ a < k * 16 + min 16 (len.toNat - k * 16)
  · have hdiv : a / 16 = k := by omega
    have hmod : a % 16 = a - k * 16 := by omega
    rw [if_pos ha, if_neg (by omega), if_pos (by omega), hdiv, hmod, hblock]
  · rw [if_neg ha]
    exact if_congr (by omega) rfl rfl

end Bytes

/-! ## The loop of `gcm_ctr` -/

section Loop
variable {aes : Block → Block} {iv : Nonce} {len : UInt32}

theorem gcmCtr_settles (aes : Block → Block) (iv : Nonce) (hlen : len.toNat ≤ 4294967280)
    (ctr : UInt32) (buf : Buffer) :
    Settles (fun fuel => gcmCtr aes iv len ctr fuel buf) (masked aes iv ctr len.toNat buf) := by
  have hstart : (ctr, buf) =
      (ctr + UInt32.ofNat 0, masked aes iv ctr (min (0 * 16) len.toNat) buf) := by
    have hnone : masked aes iv ctr 0 buf = buf := by
      funext a
      exact if_neg (Nat.not_lt_zero a)
    rw [Nat.zero_mul, Nat.zero_min, hnone]
    exact congrArg (·, buf) (UInt32.add_zero ctr).symm
  obtain ⟨last, s, hrun, rfl, hlast⟩ := strideLoop_settles 16 len (ctrTurn aes iv len) (i := 0)
    (k := 0) (s := (ctr, buf)) (I := fun k s =>
      s = (ctr + UInt32.ofNat k, masked aes iv ctr (min (k * 16) len.toNat) buf))
    (by decide) (by rw [show (16 : UInt32).toNat = 16 from rfl]; omega)
    (fun k i s hi hlt hs => hs ▸ ctrTurn_masked hi hlt) rfl hstart
  rw [show (16 : UInt32).toNat = 16 from rfl] at hlast
  rw [Nat.min_eq_right hlast] at hrun
  exact hrun.map

theorem gcmCtr_stuck (hlen : 4294967280 < len.toNat) (ctr : UInt32) (fuel : Nat) (buf : Buffer) :
    gcmCtr aes iv len ctr fuel buf = none := by
  have hstuck := strideLoop_stuck 16 len (ctrTurn aes iv len) (i := 0) (by decide)
    (by rw [show (16 : UInt32).toNat = 16 from rfl]; omega) (by decide) fuel (ctr, buf)
  rw [gcmCtr, hstuck]
  rfl

end Loop

/-! ## On texts -/

section Texts
variable {aes : Block → Block} {iv : Nonce} {len : UInt32} {buf : Buffer}

/-- The bytes of a buffer as a text. -/
def text (buf : Buffer) (len : UInt32) : Bytes := (List.range len.toNat).map buf

@[simp] theorem length_text (buf : Buffer) (len : UInt32) : (text buf len).length = len.toNat := by
  simp [text]

/-- On the bytes of a buffer counter mode is that of texts. -/
theorem text_masked (ctr : UInt32) :
    text (masked aes iv ctr len.toNat buf) len = Tls.gcmCtr aes iv (text buf len) ctr := by
  apply List.ext_getElem
  · simp
  intro k hk hk'
  rw [length_text] at hk
  simp [text, masked, Tls.gcmCtr, hk]

theorem getD_text (a : Nat) : (text buf len).getD a 0 = if a < len.toNat then buf a else 0 := by
  by_cases ha : a < len.toNat
  · simp [text, ha]
  · simp [text, ha]

/-- The blocks that `ghash` reads are those of the text. -/
theorem readBlocks_eq (hlen : len.toNat ≤ 4294967280) :
    readBlocks buf len = textBlocks (text buf len) := by
  have hcount : ((len + 15) / 16).toNat = (len.toNat + 15) / 16 := by
    have hadd : (len + 15).toNat = len.toNat + 15 := toNat_add_ofNat (j := 15) (by omega)
    rw [UInt32.toNat_div, hadd]
    rfl
  unfold readBlocks textBlocks
  rw [hcount, length_text]
  apply List.map_congr_left
  intro i hi
  have hi := List.mem_range.mp hi
  have hstart : (UInt32.ofNat i * 16).toNat = i * 16 := by
    rw [UInt32.toNat_mul, UInt32.toNat_ofNat_of_lt' (by change i < 4294967296; omega)]
    exact Nat.mod_eq_of_lt (by change i * 16 < 4294967296; omega)
  have hleft : (len - UInt32.ofNat i * 16).toNat = len.toNat - i * 16 := by
    rw [UInt32.toNat_sub_of_le _ _ (UInt32.le_iff_toNat_le.mpr (by omega)), hstart]
  have htake := (toNat_take (len - UInt32.ofNat i * 16)).2
  rw [hleft] at htake
  dsimp only
  apply congrArg Vector.ofFn
  funext j
  have hj := j.isLt
  rw [htake, getD_text]
  by_cases hin : j.val < min 16 (len.toNat - i * 16)
  · rw [if_pos hin, if_pos (by omega), toNat_add_ofNat (by omega), hstart]
  · rw [if_neg hin, if_neg (by omega)]

theorem gcmTag_eq {aad : Buffer} {aadLen : UInt32} (haad : aadLen.toNat ≤ 4294967280)
    (hlen : len.toNat ≤ 4294967280) :
    gcmTag aes iv aad aadLen buf len = Tls.gcmTag aes iv (text aad aadLen) (text buf len) := by
  rw [gcmTag, ghash, readBlocks_eq haad, readBlocks_eq hlen, Tls.gcmTag, Tls.ghash, length_text,
    length_text]

/-- No bit differs exactly when no byte does. -/
theorem tagDiff_eq_zero_iff (tag expected : Block) : tagDiff tag expected = 0 ↔ tag = expected := by
  have hfold (l : List (Fin 16)) (d : UInt8) :
      l.foldl (fun diff i => diff ||| (tag.get i ^^^ expected.get i)) d = 0 ↔
        d = 0 ∧ ∀ i ∈ l, tag.get i = expected.get i := by
    induction l generalizing d with
    | nil => simp
    | cons i l ih =>
        rw [List.foldl_cons, ih, UInt8.or_eq_zero_iff, UInt8.xor_eq_zero_iff,
          List.forall_mem_cons, and_assoc]
  rw [tagDiff, hfold]
  constructor
  · rintro ⟨-, hall⟩
    exact Vector.ext fun i hi => hall ⟨i, hi⟩ (List.mem_finRange _)
  · rintro rfl
    exact ⟨rfl, fun _ _ => rfl⟩

/-- On a buffer the encryption is that of texts. -/
theorem encrypt_settles {aad : Buffer} {aadLen : UInt32} (haad : aadLen.toNat ≤ 4294967280)
    (hlen : len.toNat ≤ 4294967280) :
    ∃ r, Settles (fun fuel => aes128gcmEncrypt aes iv aad aadLen len fuel buf) r ∧
      (text r.1 len, r.2) = Tls.aes128gcmEncrypt aes iv (text aad aadLen) (text buf len) := by
  refine ⟨_, (gcmCtr_settles aes iv hlen 1 buf).map, ?_⟩
  rw [gcmTag_eq haad hlen, text_masked]
  rfl

/-- And so is the decryption: where a text is refused, the buffer is left alone. -/
theorem decrypt_settles {aad : Buffer} {aadLen : UInt32} (haad : aadLen.toNat ≤ 4294967280)
    (hlen : len.toNat ≤ 4294967280) (expected : Block) :
    ∃ r, Settles (fun fuel => aes128gcmDecrypt aes iv aad aadLen len expected fuel buf) r ∧
      (r.1 = 0 ∧ Tls.aes128gcmDecrypt aes iv (text aad aadLen) (text buf len) expected.toList =
          some (text r.2 len) ∨
        r = (-1, buf) ∧ Tls.aes128gcmDecrypt aes iv (text aad aadLen) (text buf len)
          expected.toList = none) := by
  unfold aes128gcmDecrypt Tls.aes128gcmDecrypt
  rw [gcmTag_eq haad hlen]
  by_cases htag : Tls.gcmTag aes iv (text aad aadLen) (text buf len) = expected
  · have hdiff := (tagDiff_eq_zero_iff _ _).mpr htag
    refine ⟨(0, masked aes iv 1 len.toNat buf), ?_, Or.inl ⟨rfl, ?_⟩⟩
    · simp only [hdiff, ne_eq, not_true_eq_false, if_false]
      exact (gcmCtr_settles aes iv hlen 1 buf).map
    · rw [if_pos (congrArg Vector.toList htag), text_masked]
  · have hdiff := mt (tagDiff_eq_zero_iff _ _).mp htag
    refine ⟨(-1, buf), ?_, Or.inr ⟨rfl, ?_⟩⟩
    · simp only [ne_eq, hdiff, not_false_eq_true, if_true]
      exact .always fun _ => rfl
    · rw [if_neg fun h => htag (Vector.toList_inj.mp h)]

end Texts

/-! ## The round trip -/

section RoundTrip
variable {aes : Block → Block} {iv : Nonce} {aad : Buffer} {aadLen len : UInt32} {buf : Buffer}

/-- What the two functions are for: the plaintext is restored, whatever lies around it, and a
buffer that is not accepted is left as it was. -/
structure RoundTrips (aes : Block → Block) (iv : Nonce) (aad : Buffer) (aadLen len : UInt32)
    (buf : Buffer) : Prop where
  restored : ∃ r, Settles (fun fuel => aes128gcmEncrypt aes iv aad aadLen len fuel buf) r ∧
    Settles (fun fuel => aes128gcmDecrypt aes iv aad aadLen len r.2 fuel r.1) (0, buf)
  unchanged : ∀ expected fuel after,
    aes128gcmDecrypt aes iv aad aadLen len expected fuel buf = some (-1, after) → after = buf

theorem decrypt_unchanged {expected : Block} {fuel : Nat} {after : Buffer}
    (h : aes128gcmDecrypt aes iv aad aadLen len expected fuel buf = some (-1, after)) :
    after = buf := by
  unfold aes128gcmDecrypt at h
  split at h
  · cases h
    rfl
  · obtain ⟨_, -, hend⟩ := Option.map_eq_some_iff.mp h
    have hzero : (0 : Int32) = -1 := congrArg Prod.fst hend
    exact absurd hzero (by decide)

theorem encrypt_stuck (hlen : 4294967280 < len.toNat) (fuel : Nat) :
    aes128gcmEncrypt aes iv aad aadLen len fuel buf = none := by
  rw [aes128gcmEncrypt, gcmCtr_stuck hlen]
  rfl

theorem not_roundTrips (hlen : 4294967280 < len.toNat) :
    ¬ RoundTrips aes iv aad aadLen len buf := by
  rintro ⟨⟨r, ⟨n, hn⟩, -⟩, -⟩
  have hrun : aes128gcmEncrypt aes iv aad aadLen len n buf = some r := hn n le_rfl
  rw [encrypt_stuck hlen] at hrun
  cases hrun

theorem roundTrips (hlen : len.toNat ≤ 4294967280) : RoundTrips aes iv aad aadLen len buf := by
  refine ⟨⟨_, (gcmCtr_settles aes iv hlen 1 buf).map, ?_⟩, fun _ _ _ => decrypt_unchanged⟩
  have hback := gcmCtr_settles aes iv hlen 1 (masked aes iv 1 len.toNat buf)
  rw [masked_masked] at hback
  unfold aes128gcmDecrypt
  simp only [(tagDiff_eq_zero_iff _ _).mpr, ne_eq, not_true_eq_false, if_false]
  exact hback.map

end RoundTrip

end OriaOS.Tls.InPlace
