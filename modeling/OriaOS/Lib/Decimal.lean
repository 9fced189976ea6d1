import Mathlib

/-!
# Decimal numbers

The digits of a number as bytes, and the value of a string of digits. A scan reads the
digits in front of a text and stops at the first other byte.
-/

namespace OriaOS.Lib.Decimal

def isDigit (c : UInt8) : Bool := 0x30 ≤ c && c ≤ 0x39

/-- The digits of a number. -/
def digits (n : Nat) : List UInt8 := (Nat.toDigits 10 n).map fun c => UInt8.ofNat c.toNat

/-- The value of some digits behind a value. -/
def value (v : Nat) (s : List UInt8) : Nat := s.foldl (fun v c => 10 * v + (c.toNat - 0x30)) v

/-- A digit as a byte. -/
theorem toNat_digit {c : Char} (h : c.isDigit) : (UInt8.ofNat c.toNat).toNat = c.toNat := by
  have hle : c.toNat ≤ 57 := by
    simp only [Char.isDigit, Bool.and_eq_true, decide_eq_true_eq] at h
    exact h.2
  exact UInt8.toNat_ofNat_of_lt' (Nat.lt_of_le_of_lt hle (by decide))

theorem isDigit_digit {c : Char} (h : c.isDigit) : isDigit (UInt8.ofNat c.toNat) = true := by
  have hnat := toNat_digit h
  simp only [Char.isDigit, Bool.and_eq_true, decide_eq_true_eq] at h
  have hge : 48 ≤ c.toNat := h.1
  have hle : c.toNat ≤ 57 := h.2
  rw [isDigit, Bool.and_eq_true, decide_eq_true_eq, decide_eq_true_eq, UInt8.le_iff_toNat_le,
    UInt8.le_iff_toNat_le, hnat]
  exact ⟨hge, hle⟩

theorem isDigit_of_mem {n : Nat} {c : UInt8} (h : c ∈ digits n) : isDigit c = true := by
  obtain ⟨d, hd, rfl⟩ := List.mem_map.mp h
  exact isDigit_digit (Nat.isDigit_of_mem_toDigits (by decide) (by decide) hd)

theorem length_digits_le {n k : Nat} (hk : 0 < k) : (digits n).length ≤ k ↔ n < 10 ^ k := by
  rw [digits, List.length_map]
  exact Nat.length_toDigits_le_iff (by decide) hk

/-- A scan into a word: the value of the digits in front, and what stands behind them. -/
def scan : UInt32 → List UInt8 → UInt32 × List UInt8
  | v, [] => (v, [])
  | v, c :: s => if isDigit c then scan (v * 10 + (c - 0x30).toUInt32) s else (v, c :: s)

/-- A scan stops behind the digits. -/
theorem scan_append (v : Nat) {s rest : List UInt8} (hs : ∀ c ∈ s, isDigit c = true)
    (hrest : ∀ c, rest.head? = some c → isDigit c = false) :
    scan (UInt32.ofNat v) (s ++ rest) = (UInt32.ofNat (value v s), rest) := by
  induction s generalizing v with
  | nil =>
      cases rest with
      | nil => rfl
      | cons c rest =>
          rw [List.nil_append, scan, hrest c rfl]
          rfl
  | cons c s ih =>
      have hc := hs c List.mem_cons_self
      have hge : 0x30 ≤ c := by
        rw [isDigit, Bool.and_eq_true, decide_eq_true_eq] at hc
        exact hc.1
      have hstep : UInt32.ofNat v * 10 + (c - 0x30).toUInt32 =
          UInt32.ofNat (10 * v + (c.toNat - 0x30)) := by
        apply UInt32.toNat_inj.mp
        have hsub : (c - 0x30).toUInt32.toNat = c.toNat - 0x30 :=
          (UInt8.toNat_toUInt32 _).trans (UInt8.toNat_sub_of_le c 0x30 hge)
        rw [UInt32.toNat_add, UInt32.toNat_mul, hsub, UInt32.toNat_ofNat', UInt32.toNat_ofNat',
          Nat.mul_comm 10 v]
        change (v % 4294967296 * 10 % 4294967296 + (c.toNat - 0x30)) % 4294967296 = _
        omega
      rw [List.cons_append, scan, if_pos hc, hstep,
        ih _ fun d hd => hs d (List.mem_cons_of_mem c hd)]
      rfl

end OriaOS.Lib.Decimal
