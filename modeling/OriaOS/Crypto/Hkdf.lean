import OriaOS.Crypto.Sha256
import OriaOS.Lib.Hkdf

/-!
# HMAC and HKDF

`hmac_sha256`, `hkdf_extract`, `hkdf_expand` and `hkdf_expand_label`. A key longer than a block is
hashed into the array that the block of the key is then built in, and the blocks of the output go
through one buffer.
-/

namespace OriaOS.Crypto

open OriaOS.Lib

/-! ## The code -/

section Code

-- What is in `k0` before it is written.
variable (stack : Vector UInt8 64)

/-- `hmac_sha256`, `k0[i] = (i < klen) ? key[i] : 0`, where `key` may be `k0`. -/
def copyKey (key : List UInt8 → Nat → UInt8) (klen : Nat) (k0 : List UInt8) : List UInt8 :=
  (List.range 64).foldl (fun k0 i => k0.set i (if i < klen then key k0 i else 0)) k0

/-- `hmac_sha256`, the block of the key. -/
def keyBlock (key : List UInt8) : List UInt8 :=
  if 64 < key.length then
    copyKey (fun k0 i => k0.getD i 0) 32 (sha256 key ++ stack.toList.drop 32)
  else copyKey (fun _ i => key.getD i 0) key.length stack.toList

/-- `hmac_sha256` -/
def hmacSha256 (key msg : List UInt8) : List UInt8 :=
  let k0 := keyBlock stack key
  let ipad := k0.map (· ^^^ 0x36)
  let opad := k0.map (· ^^^ 0x5c)
  let ctx := sha256Update (sha256Update (sha256Init fresh) ipad) msg
  let (inner, ctx) := sha256Final ctx
  let ctx := sha256Update (sha256Update (sha256Init ctx) opad) inner
  (sha256Final ctx).1

/-- `hkdf_extract`, where a salt of length 0 may also be a null pointer. -/
def hkdfExtract (salt ikm : List UInt8) : List UInt8 :=
  if salt.length = 0 then hmacSha256 stack (List.replicate 32 0) ikm
  else hmacSha256 stack salt ikm

/-- `sizeof(buf) - 1` -/
abbrev bufSize : Nat := 288

/-- `hkdf_expand`, what is hashed in a round. -/
def expandBuf (info T : List UInt8) (ctr : UInt8) : List UInt8 :=
  let buf := if 1 < ctr then T else []
  buf ++ info.take (bufSize - buf.length) ++ [ctr]

/-- `hkdf_expand`, the loop with `done`, `ctr`, `T` and what was written to `out`. Every round
writes a byte at least. -/
def expandLoop (prk info : List UInt8) (olen : Nat) :
    Nat → Nat → UInt8 → List UInt8 → List UInt8 → List UInt8
  | 0, _, _, _, out => out
  | fuel + 1, done, ctr, T, out =>
      if done < olen then
        let ctr := ctr + 1
        let T := hmacSha256 stack prk (expandBuf info T ctr)
        let take := min (olen - done) 32
        expandLoop prk info olen fuel (done + take) ctr T (out ++ T.take take)
      else out

/-- `hkdf_expand`. Before the first round `T` is whatever is on the stack. -/
def hkdfExpand (prk info : List UInt8) (olen : Nat) : List UInt8 :=
  expandLoop stack (prk.take 32) info olen olen 0 0 (stack.toList.take 32) []

/-- `hkdf_expand_label`, what is written to `info`. -/
def labelInfo (label ctx : List UInt8) (outLen : UInt32) : List UInt8 :=
  [(outLen >>> 8).toUInt8, outLen.toUInt8, UInt8.ofNat (6 + label.length)] ++
    Hkdf.ascii "tls13 " ++ label ++ [UInt8.ofNat ctx.length] ++ ctx

/-- `hkdf_expand_label` -/
def hkdfExpandLabel (secret label ctx : List UInt8) (outLen : UInt32) : List UInt8 :=
  hkdfExpand stack secret (labelInfo label ctx outLen) outLen.toNat

/-- `tls13_derive_secret` -/
def tls13DeriveSecret (secret label transcriptHash : List UInt8) : List UInt8 :=
  hkdfExpandLabel stack secret label (transcriptHash.take 32) 32

end Code

/-! ## What it computes -/

/-- SHA-256 with its sizes. -/
def sha2 : Hkdf.Hash where
  hash := Sha2.sha256
  blockLen := 64
  hashLen := 32
  length_hash := Sha2.length_sha256
  hashLen_pos := Nat.succ_pos 31

variable {stack : Vector UInt8 64}

/-- A loop over the positions in order replaces what was there. It reads the key at a position
before it has written there, so the key may be what it replaces. -/
theorem copyKey_foldl {key : List UInt8 → Nat → UInt8} {klen n : Nat} {k0 block : List UInt8}
    (hlen : k0.length = 64) (hblock : block.length = 64) (hn : n ≤ 64)
    (hkey : ∀ l i, i < 64 → l.drop i = k0.drop i →
      (if i < klen then key l i else 0) = block.getD i 0) :
    (List.range n).foldl (fun k0 i => k0.set i (if i < klen then key k0 i else 0)) k0
      = block.take n ++ k0.drop n := by
  induction n with
  | zero => rfl
  | succ n ih =>
      have htake : (block.take n).length = n := by
        rw [List.length_take]
        omega
      have hdrop : (block.take n ++ k0.drop n).drop n = k0.drop n := List.drop_left' htake
      rw [List.range_succ, List.foldl_append, ih (Nat.le_of_succ_le hn), List.foldl_cons,
        List.foldl_nil, hkey _ n hn hdrop, List.set_append_right n _ htake.le, htake,
        Nat.sub_self, List.drop_eq_getElem_cons (by omega), List.set_cons_zero,
        List.getD_eq_getElem _ _ (by omega), List.take_succ_eq_append_getElem (by omega),
        List.append_assoc]
      rfl

theorem copyKey_eq {key : List UInt8 → Nat → UInt8} {klen : Nat} {k0 bytes : List UInt8}
    (hlen : k0.length = 64) (hbytes : bytes.length = klen) (hklen : klen ≤ 64)
    (hkey : ∀ l i, i < klen → l.drop i = k0.drop i → key l i = bytes.getD i 0) :
    copyKey key klen k0 = bytes ++ List.replicate (64 - bytes.length) 0 := by
  have hblock : (bytes ++ List.replicate (64 - bytes.length) (0 : UInt8)).length = 64 := by
    rw [List.length_append, List.length_replicate]
    omega
  rw [copyKey, copyKey_foldl hlen hblock (Nat.le_refl 64), List.take_of_length_le hblock.le,
    List.drop_eq_nil_of_le hlen.le, List.append_nil]
  intro l i hi hl
  split
  · rw [hkey l i ‹_› hl, List.getD_append _ _ _ _ (by omega)]
  · rw [List.getD_append_right _ _ _ _ (by omega), List.getD_replicate _ (by omega)]

theorem keyBlock_eq (key : List UInt8) :
    keyBlock stack key =
      (if 64 < key.length then Sha2.sha256 key else key) ++
        List.replicate (64 - (if 64 < key.length then Sha2.sha256 key else key).length) 0 := by
  have hstack : stack.toList.length = 64 := Vector.length_toList
  have hhash := Sha2.length_sha256 key
  rw [keyBlock]
  by_cases hlong : 64 < key.length
  · rw [if_pos hlong, if_pos hlong, sha256_eq]
    refine copyKey_eq ?_ hhash (by decide) ?_
    · rw [List.length_append, List.length_drop, hhash, hstack]
    · intro l i hi hl
      have hfirst := congrArg (fun l => l.getD 0 0) hl
      simp only [List.getD_eq_getElem?_getD, List.getElem?_drop, Nat.add_zero] at hfirst ⊢
      rw [hfirst, List.getElem?_append_left (by omega)]
  · rw [if_neg hlong, if_neg hlong]
    apply copyKey_eq hstack rfl (Nat.not_lt.mp hlong)
    intro l i hi hl
    rfl

/-- `hmac_sha256` is HMAC. -/
theorem hmacSha256_eq (key msg : List UInt8) :
    hmacSha256 stack key msg = Hkdf.hmac sha2 key msg := by
  obtain ⟨ctx, hctx⟩ : ∃ ctx, ctx = sha256Update (sha256Update (sha256Init fresh)
    ((keyBlock stack key).map (· ^^^ 0x36))) msg := ⟨_, rfl⟩
  have hinner : (sha256Final ctx).1
      = Sha2.sha256 ([] ++ (keyBlock stack key).map (· ^^^ 0x36) ++ msg) := by
    rw [hctx]
    exact (((absorbed_sha256Init fresh).update _).update msg).final
  have houter : hmacSha256 stack key msg = Sha2.sha256
      ([] ++ (keyBlock stack key).map (· ^^^ 0x5c) ++ (sha256Final ctx).1) := by
    rw [← (((absorbed_sha256Init (sha256Final ctx).2).update
      ((keyBlock stack key).map (· ^^^ 0x5c))).update (sha256Final ctx).1).final, hctx]
    rfl
  rw [houter, hinner, keyBlock_eq]
  rfl

/-- `hkdf_extract` is HKDF-Extract, an empty salt as good as none. -/
theorem hkdfExtract_eq (salt ikm : List UInt8) :
    hkdfExtract stack salt ikm
      = Hkdf.extract sha2 (if salt = [] then none else some salt) ikm := by
  rw [hkdfExtract, Hkdf.extract]
  by_cases hsalt : salt = []
  · rw [if_pos hsalt, if_pos (by rw [hsalt]; rfl), hmacSha256_eq]
    rfl
  · rw [if_neg hsalt, if_neg (mt List.length_eq_zero_iff.mp hsalt), hmacSha256_eq]
    rfl

/-! ### The blocks of the output -/

section Expand
variable {prk info : List UInt8} {olen : Nat}

theorem expandBuf_eq {T : List UInt8} {i : Nat} (hinfo : info.length ≤ 256) (hi : i < 255)
    (hT : i ≠ 0 → T = Hkdf.T sha2 prk info i) :
    expandBuf info T (UInt8.ofNat (i + 1))
      = Hkdf.T sha2 prk info i ++ info ++ [UInt8.ofNat (i + 1)] := by
  have hctr : (UInt8.ofNat (i + 1)).toNat = i + 1 := by
    rw [UInt8.toNat_ofNat']
    exact Nat.mod_eq_of_lt (by omega)
  rw [expandBuf]
  cases i with
  | zero =>
      have hfirst : ¬(1 < UInt8.ofNat (0 + 1)) := by decide
      rw [if_neg hfirst, List.take_of_length_le (hinfo.trans (by decide))]
      rfl
  | succ i =>
      have hlater : 1 < UInt8.ofNat (i + 1 + 1) := by
        rw [UInt8.lt_iff_toNat_lt, hctr]
        exact Nat.succ_lt_succ (Nat.succ_pos i)
      have hlen : (Hkdf.T sha2 prk info (i + 1)).length = 32 := Hkdf.length_T_succ i
      have hfit : info.length ≤ bufSize - 32 := hinfo
      rw [if_pos hlater, hT (Nat.succ_ne_zero i), hlen, List.take_of_length_le hfit]

theorem expandLoop_of_done {fuel : Nat} {ctr : UInt8} {T out : List UInt8} :
    expandLoop stack prk info olen fuel olen ctr T out = out := by
  cases fuel with
  | zero => rfl
  | succ fuel => exact if_neg (Nat.lt_irrefl olen)

theorem length_blocks (i : Nat) : (Hkdf.blocks sha2 prk info i).length = 32 * i :=
  (Hkdf.length_blocks i).trans (Nat.mul_comm i 32)

/-- The output up to its last block, and as much of that as is asked for. -/
theorem expand_last {i : Nat} (hmore : 32 * i < olen) (hlast : olen ≤ 32 * i + 32) :
    Hkdf.expand sha2 prk info olen
      = Hkdf.blocks sha2 prk info i ++ (Hkdf.T sha2 prk info (i + 1)).take (olen - 32 * i) := by
  have hcount : (olen + sha2.hashLen - 1) / sha2.hashLen = i + 1 := by
    change (olen + 32 - 1) / 32 = i + 1
    omega
  rw [Hkdf.expand, hcount, Hkdf.blocks_succ, List.take_append, length_blocks,
    List.take_of_length_le (by rw [length_blocks]; exact hmore.le)]

theorem expand_whole {i : Nat} :
    Hkdf.expand sha2 prk info (32 * i) = Hkdf.blocks sha2 prk info i := by
  have hcount : (32 * i + sha2.hashLen - 1) / sha2.hashLen = i := by
    change (32 * i + 32 - 1) / 32 = i
    omega
  rw [Hkdf.expand, hcount, List.take_of_length_le (length_blocks i).le]

/-- From a round on before which only whole blocks were written. -/
theorem expandLoop_eq {fuel i : Nat} {T : List UInt8} (hinfo : info.length ≤ 256)
    (holen : olen ≤ 8160) (hi : 32 * i ≤ olen) (hfuel : olen - 32 * i ≤ fuel)
    (hT : i ≠ 0 → T = Hkdf.T sha2 prk info i) :
    expandLoop stack prk info olen fuel (32 * i) (UInt8.ofNat i) T (Hkdf.blocks sha2 prk info i)
      = Hkdf.expand sha2 prk info olen := by
  induction fuel generalizing i T with
  | zero =>
      obtain rfl : olen = 32 * i := by omega
      rw [expandLoop_of_done, expand_whole]
  | succ fuel ih =>
      rcases Nat.eq_or_lt_of_le hi with rfl | hmore
      · rw [expandLoop_of_done, expand_whole]
      have hctr : UInt8.ofNat i + 1 = UInt8.ofNat (i + 1) := (UInt8.ofNat_add i 1).symm
      have hblock : hmacSha256 stack prk (expandBuf info T (UInt8.ofNat (i + 1)))
          = Hkdf.T sha2 prk info (i + 1) := by
        rw [expandBuf_eq hinfo (by omega) hT, hmacSha256_eq]
        rfl
      have hlen : (Hkdf.T sha2 prk info (i + 1)).length = 32 := Hkdf.length_T_succ i
      rw [expandLoop, if_pos hmore]
      simp only [hctr, hblock]
      rcases Nat.lt_or_ge (32 * i + 32) olen with hfull | hlast
      · -- A whole block.
        have htake : min (olen - 32 * i) 32 = 32 := Nat.min_eq_right (by omega)
        rw [htake, List.take_of_length_le hlen.le, ← Hkdf.blocks_succ]
        exact ih (i := i + 1) (by omega) (by omega) fun _ => rfl
      · -- The last block, or the part of it that is asked for.
        have htake : min (olen - 32 * i) 32 = olen - 32 * i := Nat.min_eq_left (by omega)
        rw [htake, Nat.add_sub_cancel' hi, expandLoop_of_done,
          expand_last hmore hlast]

/-- `hkdf_expand` is HKDF-Expand while the counter and the buffer last. -/
theorem hkdfExpand_eq (hprk : prk.length = 32) (hinfo : info.length ≤ 256) (holen : olen ≤ 8160) :
    hkdfExpand stack prk info olen = Hkdf.expand sha2 prk info olen := by
  rw [hkdfExpand, List.take_of_length_le hprk.le]
  exact expandLoop_eq (i := 0) hinfo holen (Nat.zero_le _) (Nat.le_refl _) (absurd rfl)

end Expand

/-! ### Labels -/

/-- `hkdf_expand_label` is HKDF-Expand-Label for labels and contexts that the array holds. -/
theorem hkdfExpandLabel_eq {secret label ctx : List UInt8} {outLen : UInt32}
    (hsecret : secret.length = 32) (hlabel : label.length ≤ 64) (hctx : ctx.length ≤ 64)
    (hlen : outLen.toNat ≤ 8160) :
    hkdfExpandLabel stack secret label ctx outLen
      = Hkdf.expandLabel sha2 secret label ctx outLen.toNat := by
  have hprefix : (Hkdf.ascii "tls13 ").length = 6 := rfl
  have hhigh : (outLen >>> 8).toUInt8 = UInt8.ofNat (outLen.toNat / 256) := by
    apply UInt8.toNat_inj.mp
    rw [UInt32.toNat_toUInt8, UInt32.toNat_shiftRight, UInt8.toNat_ofNat',
      Nat.shiftRight_eq_div_pow]
    rfl
  have hlow : outLen.toUInt8 = UInt8.ofNat outLen.toNat := rfl
  have hinfo : labelInfo label ctx outLen = Hkdf.hkdfLabel outLen.toNat label ctx := by
    rw [labelInfo, Hkdf.hkdfLabel, hhigh, hlow, List.length_append, hprefix]
    simp only [List.append_assoc, List.cons_append, List.nil_append]
  have hbound : (labelInfo label ctx outLen).length ≤ 256 := by
    simp only [labelInfo, List.length_append, hprefix, List.length_cons, List.length_nil]
    omega
  rw [hkdfExpandLabel, hkdfExpand_eq hsecret hbound hlen, hinfo]
  rfl

theorem tls13DeriveSecret_eq {secret label th : List UInt8} (hsecret : secret.length = 32)
    (hlabel : label.length ≤ 64) (hth : th.length = 32) :
    tls13DeriveSecret stack secret label th = Hkdf.deriveSecret sha2 secret label th := by
  rw [tls13DeriveSecret, List.take_of_length_le hth.le,
    hkdfExpandLabel_eq hsecret hlabel (hth.trans_le (by decide)) (by decide)]
  rfl

end OriaOS.Crypto
