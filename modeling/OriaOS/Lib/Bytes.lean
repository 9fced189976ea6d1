import Mathlib

/-!
# Little-endian words and C strings

Words as their bytes in memory order, and strings as what precedes the
terminator. Copying into a fixed array keeps the bytes behind the terminator.
-/

namespace OriaOS.Lib

variable {a fuel n : Nat} {mem : Nat → UInt8}

/-- The word of four bytes, the first the least significant. -/
def ofLe32 (a b c d : UInt8) : UInt32 :=
  a.toUInt32 ||| (b.toUInt32 <<< 8) ||| (c.toUInt32 <<< 16) ||| (d.toUInt32 <<< 24)

/-- The half word of two bytes. -/
def ofLe16 (a b : UInt8) : UInt16 :=
  a.toUInt16 ||| (b.toUInt16 <<< 8)

@[simp] theorem ofLe32_bytes (x : UInt32) :
    ofLe32 x.toUInt8 (x >>> 8).toUInt8 (x >>> 16).toUInt8 (x >>> 24).toUInt8 = x := by
  apply UInt32.eq_of_toBitVec_eq
  apply BitVec.eq_of_getLsbD_eq
  intro i hi
  simp only [ofLe32, UInt32.toBitVec_or, UInt32.toBitVec_shiftLeft, UInt8.toBitVec_toUInt32,
    UInt32.toBitVec_toUInt8, UInt32.toBitVec_shiftRight, UInt32.toBitVec_ofNat,
    BitVec.getLsbD_or, BitVec.shiftLeft_eq', BitVec.ushiftRight_eq', BitVec.reduceMod,
    BitVec.reduceToNat, BitVec.getLsbD_shiftLeft, BitVec.getLsbD_setWidth,
    BitVec.getLsbD_ushiftRight]
  -- Each bit lies in exactly one of the four bytes.
  rcases Nat.lt_or_ge i 8 with h | h
  · grind
  rcases Nat.lt_or_ge i 16 with h | h
  · grind
  grind

@[simp] theorem ofLe16_bytes (x : UInt16) : ofLe16 x.toUInt8 (x >>> 8).toUInt8 = x := by
  apply UInt16.eq_of_toBitVec_eq
  apply BitVec.eq_of_getLsbD_eq
  intro i hi
  simp only [ofLe16, UInt16.toBitVec_or, UInt16.toBitVec_shiftLeft, UInt8.toBitVec_toUInt16,
    UInt16.toBitVec_toUInt8, UInt16.toBitVec_shiftRight, UInt16.toBitVec_ofNat,
    BitVec.getLsbD_or, BitVec.shiftLeft_eq', BitVec.ushiftRight_eq', BitVec.reduceMod,
    BitVec.reduceToNat, BitVec.getLsbD_shiftLeft, BitVec.getLsbD_setWidth,
    BitVec.getLsbD_ushiftRight]
  grind

/-- The bytes of the word of four bytes. -/
theorem bytes_ofLe32 (a b c d : UInt8) :
    (ofLe32 a b c d).toUInt8 = a ∧ (ofLe32 a b c d >>> 8).toUInt8 = b ∧
      (ofLe32 a b c d >>> 16).toUInt8 = c ∧ (ofLe32 a b c d >>> 24).toUInt8 = d := by
  refine ⟨?_, ?_, ?_, ?_⟩
  all_goals
    apply UInt8.eq_of_toBitVec_eq
    apply BitVec.eq_of_getLsbD_eq
    intro i hi
    simp only [ofLe32, UInt32.toBitVec_or, UInt32.toBitVec_shiftLeft, UInt8.toBitVec_toUInt32,
      UInt32.toBitVec_toUInt8, UInt32.toBitVec_shiftRight, UInt32.toBitVec_ofNat,
      BitVec.getLsbD_or, BitVec.shiftLeft_eq', BitVec.ushiftRight_eq', BitVec.reduceMod,
      BitVec.reduceToNat, BitVec.getLsbD_shiftLeft, BitVec.getLsbD_setWidth,
      BitVec.getLsbD_ushiftRight]
    grind

/-- The bytes of the half word of two bytes. -/
theorem bytes_ofLe16 (a b : UInt8) :
    (ofLe16 a b).toUInt8 = a ∧ (ofLe16 a b >>> 8).toUInt8 = b := by
  constructor
  all_goals
    apply UInt8.eq_of_toBitVec_eq
    apply BitVec.eq_of_getLsbD_eq
    intro i hi
    simp only [ofLe16, UInt16.toBitVec_or, UInt16.toBitVec_shiftLeft, UInt8.toBitVec_toUInt16,
      UInt16.toBitVec_toUInt8, UInt16.toBitVec_shiftRight, UInt16.toBitVec_ofNat,
      BitVec.getLsbD_or, BitVec.shiftLeft_eq', BitVec.ushiftRight_eq', BitVec.reduceMod,
      BitVec.reduceToNat, BitVec.getLsbD_shiftLeft, BitVec.getLsbD_setWidth,
      BitVec.getLsbD_ushiftRight]
    grind

theorem low_byte16 (x : UInt16) : (x &&& 0xFF).toUInt8 = x.toUInt8 := by
  rw [UInt16.toUInt8_and]
  exact UInt8.and_neg_one

theorem low_byte32 (x : UInt32) : (x &&& 0xFF).toUInt8 = x.toUInt8 := by
  rw [UInt32.toUInt8_and]
  exact UInt8.and_neg_one

/-- The word of four bytes, the first the most significant. -/
theorem be32_eq_ofLe32 (a b c d : UInt8) :
    a.toUInt32 <<< 24 ||| b.toUInt32 <<< 16 ||| c.toUInt32 <<< 8 ||| d.toUInt32
      = ofLe32 d c b a := by
  rw [ofLe32, UInt32.or_comm _ d.toUInt32, UInt32.or_comm _ (c.toUInt32 <<< 8),
    UInt32.or_comm (a.toUInt32 <<< 24), ← UInt32.or_assoc, ← UInt32.or_assoc, UInt32.or_assoc,
    UInt32.or_assoc]

/-- A string: the bytes before its terminator. -/
structure CString where
  bytes : List UInt8
  nonzero : (0 : UInt8) ∉ bytes
deriving DecidableEq

namespace CString

theorem zero_notMem_nil : (0 : UInt8) ∉ ([] : List UInt8) := List.not_mem_nil

def empty : CString := ⟨[], zero_notMem_nil⟩

/-- The number of bytes before the terminator. -/
def length (s : CString) : Nat := s.bytes.length

/-- The string that starts at an address, read for at most `fuel` bytes. -/
def readBytes (mem : Nat → UInt8) : Nat → Nat → List UInt8
  | 0, _ => []
  | fuel + 1, a => if mem a = 0 then [] else mem a :: readBytes mem fuel (a + 1)

theorem zero_notMem_readBytes (mem : Nat → UInt8) (fuel a : Nat) :
    (0 : UInt8) ∉ readBytes mem fuel a := by
  induction fuel generalizing a with
  | zero => simp [readBytes]
  | succ fuel ih =>
      simp only [readBytes]
      split
      · simp
      · simp only [List.mem_cons, not_or]
        exact ⟨fun h => ‹¬ mem a = 0› h.symm, ih (a + 1)⟩

/-- The string in memory at an address. -/
def read (mem : Nat → UInt8) (fuel a : Nat) : CString :=
  ⟨readBytes mem fuel a, zero_notMem_readBytes mem fuel a⟩

/-- What is read is what stands before the terminator. -/
theorem readBytes_eq {l : List UInt8} (hz : 0 ∉ l)
    (hl : ∀ k, ∀ h : k < l.length, mem (a + k) = l[k]) (hend : mem (a + l.length) = 0)
    (hfuel : l.length < fuel) : readBytes mem fuel a = l := by
  induction l generalizing fuel a with
  | nil =>
      obtain ⟨fuel, rfl⟩ := Nat.exists_eq_add_of_lt hfuel
      exact if_pos hend
  | cons c l ih =>
      obtain ⟨hc, hrest⟩ := not_or.mp (mt List.mem_cons.mpr hz)
      obtain ⟨fuel, rfl⟩ : ∃ f, fuel = f + 1 := Nat.exists_eq_succ_of_ne_zero (by omega)
      have hfirst : mem a = c := hl 0 (by simp)
      have htail : readBytes mem fuel (a + 1) = l := by
        apply ih hrest
        · intro k hk
          calc
            mem (a + 1 + k) = mem (a + (k + 1)) := by rw [Nat.add_assoc, Nat.add_comm 1]
            _ = l[k] := hl (k + 1) (Nat.succ_lt_succ hk)
        · rw [Nat.add_assoc, Nat.add_comm 1]
          exact hend
        · simpa using hfuel
      rw [readBytes, hfirst, if_neg fun h => hc h.symm, htail]

/-- Two memories that agree up to a terminator hold the same string. -/
theorem readBytes_congr {mem' : Nat → UInt8} {fuel' a' z : Nat} (hz : mem (a + z) = 0)
    (h : ∀ k, k ≤ z → mem' (a' + k) = mem (a + k)) (hfuel : z < fuel) (hfuel' : z < fuel') :
    readBytes mem' fuel' a' = readBytes mem fuel a := by
  induction z generalizing fuel fuel' a a' with
  | zero =>
      obtain ⟨fuel, rfl⟩ := Nat.exists_eq_add_of_lt hfuel
      obtain ⟨fuel', rfl⟩ := Nat.exists_eq_add_of_lt hfuel'
      have hzero : mem a = 0 := hz
      have hzero' : mem' a' = 0 := (h 0 (Nat.le_refl 0)).trans hz
      simp [readBytes, hzero, hzero']
  | succ z ih =>
      obtain ⟨fuel, rfl⟩ : ∃ f, fuel = f + 1 := Nat.exists_eq_succ_of_ne_zero (by omega)
      obtain ⟨fuel', rfl⟩ : ∃ f, fuel' = f + 1 := Nat.exists_eq_succ_of_ne_zero (by omega)
      have hfirst : mem' a' = mem a := h 0 (Nat.zero_le _)
      have htail : readBytes mem' fuel' (a' + 1) = readBytes mem fuel (a + 1) := by
        apply ih
        · rw [Nat.add_assoc, Nat.add_comm 1]
          exact hz
        · intro k hk
          rw [Nat.add_assoc, Nat.add_assoc, Nat.add_comm 1]
          exact h (k + 1) (Nat.succ_le_succ hk)
        · omega
        · omega
      simp [readBytes, hfirst, htail]

/-- A string that ends where it is read is shorter than the distance. -/
theorem length_readBytes_le {z : Nat} (hz : mem (a + z) = 0) :
    (readBytes mem fuel a).length ≤ z := by
  induction fuel generalizing a z with
  | zero => exact Nat.zero_le z
  | succ fuel ih =>
      rw [readBytes]
      split
      · exact Nat.zero_le z
      · next hne =>
        cases z with
        | zero => exact absurd hz hne
        | succ z =>
            apply Nat.succ_le_succ
            apply ih
            rw [Nat.add_assoc, Nat.add_comm 1]
            exact hz

/-- The first `n` bytes of a string. -/
def cut (s : CString) (n : Nat) : CString :=
  ⟨s.bytes.take n, fun h => s.nonzero (List.mem_of_mem_take h)⟩

theorem cut_of_le {s : CString} (h : s.length ≤ n) : s.cut n = s := by
  cases s
  simp only [cut, CString.mk.injEq]
  exact List.take_of_length_le h

theorem length_cut (s : CString) (n : Nat) : (s.cut n).length = min n s.length :=
  List.length_take

/-- Copy into an array of `n` bytes: at most `n - 1` bytes and a terminator. -/
def copyTo {n : Nat} (s : CString) (dest : Fin n → UInt8) : Fin n → UInt8 := fun k =>
  if k.val < min s.length (n - 1) then s.bytes.getD k.val 0
  else if k.val = min s.length (n - 1) then 0
  else dest k

theorem terminated_copyTo (s : CString) (dest : Fin n → UInt8) (hn : 0 < n) :
    ∃ k, s.copyTo dest k = 0 := by
  have hlt : min s.length (n - 1) < n := by omega
  exact ⟨⟨_, hlt⟩, by simp [copyTo]⟩

/-- An array as memory, with zeros behind it. -/
def arrayMem {n : Nat} (arr : Fin n → UInt8) (k : Nat) : UInt8 :=
  if h : k < n then arr ⟨k, h⟩ else 0

theorem arrayMem_val (arr : Fin n → UInt8) (k : Fin n) : arrayMem arr (0 + k.val) = arr k := by
  simp [arrayMem]

/-- The string in an array. -/
def ofArray {n : Nat} (arr : Fin n → UInt8) : CString := read (arrayMem arr) n 0

/-- Wherever an array with a terminator stands, the same string is read. -/
theorem read_eq_ofArray {arr : Fin n → UInt8} (hterm : ∃ k, arr k = 0) (hfuel : n ≤ fuel)
    (hmem : ∀ k : Fin n, mem (a + k.val) = arr k) : read mem fuel a = ofArray arr := by
  obtain ⟨z, hz⟩ := hterm
  simp only [ofArray, read, CString.mk.injEq]
  apply readBytes_congr (z := z.val)
  · exact (arrayMem_val arr z).trans hz
  · intro k hk
    have hlt : k < n := hk.trans_lt z.isLt
    exact (hmem ⟨k, hlt⟩).trans (arrayMem_val arr ⟨k, hlt⟩).symm
  · exact z.isLt
  · exact z.isLt.trans_le hfuel

theorem length_ofArray {arr : Fin n → UInt8} (hterm : ∃ k, arr k = 0) :
    (ofArray arr).length ≤ n - 1 := by
  obtain ⟨z, hz⟩ := hterm
  have hle : (ofArray arr).length ≤ z.val :=
    length_readBytes_le ((arrayMem_val arr z).trans hz)
  exact hle.trans (Nat.le_pred_of_lt z.isLt)

/-- A copy reads back as the part that fits. -/
theorem ofArray_copyTo (s : CString) (dest : Fin n → UInt8) (hn : 0 < n) :
    ofArray (s.copyTo dest) = s.cut (n - 1) := by
  have hlen : (s.cut (n - 1)).bytes.length = min s.length (n - 1) := by
    rw [Nat.min_comm]
    exact s.length_cut (n - 1)
  have hlt : min s.length (n - 1) < n := by omega
  simp only [ofArray, read, cut, CString.mk.injEq]
  apply readBytes_eq
  · exact (s.cut (n - 1)).nonzero
  · intro k hk
    have hk' : k < min s.length (n - 1) := hlen ▸ hk
    have hks : k < s.bytes.length := hk'.trans_le (Nat.min_le_left _ _)
    rw [arrayMem_val _ ⟨k, hk'.trans hlt⟩, copyTo, if_pos hk', List.getElem_take]
    exact List.getD_eq_getElem _ _ hks
  · have hend := arrayMem_val (s.copyTo dest) ⟨min s.length (n - 1), hlt⟩
    rw [copyTo, if_neg (Nat.lt_irrefl _), if_pos rfl] at hend
    exact hlen ▸ hend
  · exact hlen ▸ hlt

end CString

/-! ## Overwriting a part -/

/-- Store bytes at an offset; a gap behind the end is filled with zeros. -/
def overwrite (old : List UInt8) (off : Nat) (bytes : List UInt8) : List UInt8 :=
  old.take off ++ List.replicate (off - old.length) 0 ++ bytes ++ old.drop (off + bytes.length)

theorem length_overwrite (old : List UInt8) (off : Nat) (bytes : List UInt8) :
    (overwrite old off bytes).length = max old.length (off + bytes.length) := by
  simp only [overwrite, List.length_append, List.length_take, List.length_replicate,
    List.length_drop]
  omega

/-- Memory that holds the bytes where they were stored, the old ones elsewhere, and zeros
in the gap. -/
theorem map_range_eq_overwrite {old bytes : List UInt8} {off : Nat}
    (hgap : ∀ a, old.length ≤ a → a < off → mem a = 0)
    (hin : ∀ k, ∀ h : k < bytes.length, mem (off + k) = bytes[k])
    (hout : ∀ a, ∀ h : a < old.length, a < off ∨ off + bytes.length ≤ a → mem a = old[a]) :
    (List.range (max old.length (off + bytes.length))).map mem = overwrite old off bytes := by
  have hfront : (old.take off ++ List.replicate (off - old.length) 0).length = off := by
    rw [List.length_append, List.length_take, List.length_replicate]
    omega
  rw [overwrite]
  generalize hfrontEq : old.take off ++ List.replicate (off - old.length) 0 = front at hfront
  apply List.ext_getElem
  · simp only [List.length_map, List.length_range, List.length_append, hfront, List.length_drop]
    omega
  · intro a ha ha'
    rw [List.getElem_map, List.getElem_range]
    rcases Nat.lt_or_ge a off with hlow | hlow
    · rw [List.getElem_append_left (by simp only [List.length_append]; omega),
        List.getElem_append_left (by omega)]
      subst hfrontEq
      rcases Nat.lt_or_ge a old.length with hold | hold
      · rw [List.getElem_append_left (by rw [List.length_take]; omega), List.getElem_take]
        exact hout a hold (Or.inl hlow)
      · rw [List.getElem_append_right (by rw [List.length_take]; omega), List.getElem_replicate]
        exact hgap a hold hlow
    · obtain ⟨k, rfl⟩ := Nat.exists_eq_add_of_le hlow
      rcases Nat.lt_or_ge k bytes.length with hk | hk
      · rw [List.getElem_append_left (by simp only [List.length_append]; omega),
          List.getElem_append_right (by omega), hin k hk]
        simp [hfront]
      · obtain ⟨i, rfl⟩ := Nat.exists_eq_add_of_le hk
        have hold : off + (bytes.length + i) < old.length := by
          simp only [List.length_map, List.length_range] at ha
          omega
        rw [List.getElem_append_right (by simp only [List.length_append]; omega),
          List.getElem_drop, hout _ hold (Or.inr (by omega))]
        congr 1
        simp only [List.length_append, hfront]
        omega

/-- Storing what stands there already changes nothing. -/
theorem overwrite_same {old : List UInt8} {off len : Nat} (h : off + len ≤ old.length) :
    overwrite old off ((old.drop off).take len) = old := by
  have hlen : ((old.drop off).take len).length = len := by
    rw [List.length_take, List.length_drop]
    omega
  have hgap : off - old.length = 0 := by omega
  rw [overwrite, hgap, List.replicate_zero, List.append_nil, hlen, List.append_assoc,
    ← List.drop_drop, List.take_append_drop, List.take_append_drop]

end OriaOS.Lib
