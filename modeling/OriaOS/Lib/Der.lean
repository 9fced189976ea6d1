import Mathlib

/-!
# Distinguished encoding of tags, lengths and values

The definite form of a length in its fewest bytes, and an element as its tag, its length
and its content.
-/

namespace OriaOS.Lib.Der

/-- The big-endian digits of a number in base 256. -/
def digits (n : Nat) : List UInt8 := (Nat.digits 256 n).reverse.map UInt8.ofNat

/-- The bytes of a length. -/
def lengthBytes (n : Nat) : List UInt8 :=
  if n < 128 then [UInt8.ofNat n] else UInt8.ofNat (128 + (digits n).length) :: digits n

/-- An element: tag, length and content. -/
def tlv (tag : UInt8) (content : List UInt8) : List UInt8 :=
  tag :: lengthBytes content.length ++ content

/-- The number of bytes in front of the content. -/
def header (content : List UInt8) : Nat := 1 + (lengthBytes content.length).length

/-- The number that digits stand for. -/
def value (bytes : List UInt8) : Nat := bytes.foldl (fun n b => n * 256 + b.toNat) 0

theorem value_digits (n : Nat) : value (digits n) = n := by
  have hfold : ∀ ds : List Nat, (∀ x ∈ ds, x < 256) →
      ds.foldr (fun x m => m * 256 + (UInt8.ofNat x).toNat) 0 = Nat.ofDigits 256 ds := by
    intro ds
    induction ds with
    | nil => simp [Nat.ofDigits]
    | cons x ds ih =>
        intro h
        have hx : x < 256 := h x List.mem_cons_self
        rw [List.foldr_cons, ih fun y hy => h y (List.mem_cons_of_mem x hy), Nat.ofDigits_cons,
          UInt8.toNat_ofNat', Nat.mod_eq_of_lt hx]
        omega
  rw [value, digits, List.foldl_map, List.foldl_reverse,
    hfold _ fun x hx => Nat.digits_lt_base (by decide) hx, Nat.ofDigits_digits]

/-- The number of digits of a number below a power of the base. -/
theorem length_digits_le {n k : Nat} (h : n < 256 ^ k) : (digits n).length ≤ k := by
  rw [digits, List.length_map, List.length_reverse]
  exact (Nat.digits_length_le_iff (by decide) n).mpr h

theorem length_digits_pos {n : Nat} (h : n ≠ 0) : 0 < (digits n).length := by
  rw [digits, List.length_map, List.length_reverse]
  exact List.length_pos_of_ne_nil (Nat.digits_ne_nil_iff_ne_zero.mpr h)

theorem length_tlv (tag : UInt8) (content : List UInt8) :
    (tlv tag content).length = header content + content.length := by
  simp only [tlv, header, List.cons_append, List.length_cons, List.length_append]
  omega

theorem two_le_header (content : List UInt8) : 2 ≤ header content := by
  rw [header, lengthBytes]
  split
  · exact le_refl 2
  · rw [List.length_cons]
    omega

end OriaOS.Lib.Der
