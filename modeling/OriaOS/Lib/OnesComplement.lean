import Mathlib

/-!
# One's-complement sums

Words of `w` bits added with end-around carry. The sum is the ordinary sum reduced modulo
`2 ^ w - 1`, with all ones and not zero for the positive multiples; so a word that is the
complement of a sum makes the sum all ones.
-/

namespace OriaOS.Lib.OnesComplement

/-- The word of ones. -/
def ones (w : Nat) : Nat := 2 ^ w - 1

/-- The carry added back to the low bits. -/
def wrap (w n : Nat) : Nat := n % 2 ^ w + n / 2 ^ w

/-- Words added with end-around carry. -/
def total (w : Nat) (ws : List Nat) : Nat := ws.foldl (fun sum x => wrap w (sum + x)) 0

/-- A number modulo `2 ^ w - 1`, where the positive multiples become all ones. -/
def residue (w n : Nat) : Nat := if n = 0 then 0 else (n - 1) % ones w + 1

variable {w a b n : Nat}

theorem residue_of_lt (h : n < 2 ^ w) : residue w n = n := by
  rw [residue]
  split
  · exact Eq.symm ‹_›
  · rw [Nat.mod_eq_of_lt (by rw [ones]; omega)]
    omega

theorem residue_lt (hw : 0 < w) (n : Nat) : residue w n < 2 ^ w := by
  have hpos : 1 < 2 ^ w := Nat.one_lt_two_pow hw.ne'
  have hmod : (n - 1) % ones w < ones w := Nat.mod_lt _ (by rw [ones]; omega)
  rw [residue]
  split
  · omega
  · rw [ones] at hmod ⊢
    omega

/-- Numbers that differ by a multiple have the same residue, if both or neither is zero. -/
theorem residue_congr (hmod : a ≡ b [MOD ones w]) (hzero : a = 0 ↔ b = 0) :
    residue w a = residue w b := by
  rw [residue, residue]
  by_cases ha : a = 0
  · rw [if_pos ha, if_pos (hzero.mp ha)]
  · have hb := mt hzero.mpr ha
    rw [if_neg ha, if_neg hb]
    have hpred : a - 1 ≡ b - 1 [MOD ones w] := by
      apply Nat.ModEq.add_right_cancel' 1
      rwa [Nat.sub_add_cancel (Nat.pos_of_ne_zero ha), Nat.sub_add_cancel (Nat.pos_of_ne_zero hb)]
    rw [hpred]

/-- The residue is congruent. -/
theorem residue_modEq (w n : Nat) : residue w n ≡ n [MOD ones w] := by
  rw [residue]
  split
  · rw [‹n = 0›]
  · calc
      (n - 1) % ones w + 1 ≡ n - 1 + 1 [MOD ones w] := (Nat.mod_modEq _ _).add_right 1
      _ = n := by omega

theorem residue_eq_zero : residue w n = 0 ↔ n = 0 := by
  rw [residue]
  split <;> simp [*]

theorem two_pow_modEq (w : Nat) : 2 ^ w ≡ 1 [MOD ones w] := by
  have hpow : 2 ^ w = ones w + 1 := by
    have := Nat.two_pow_pos w
    rw [ones]
    omega
  rw [hpow]
  simp [Nat.ModEq]

/-- Adding the carry back does not change the residue. -/
theorem residue_wrap (w n : Nat) : residue w (wrap w n) = residue w n := by
  apply residue_congr
  · calc
      wrap w n = n % 2 ^ w + 1 * (n / 2 ^ w) := by rw [wrap, Nat.one_mul]
      _ ≡ n % 2 ^ w + 2 ^ w * (n / 2 ^ w) [MOD ones w] :=
        ((two_pow_modEq w).symm.mul_right _).add_left _
      _ = n := Nat.mod_add_div n (2 ^ w)
  · have hdiv := Nat.mod_add_div n (2 ^ w)
    constructor
    · intro h
      have hparts : n % 2 ^ w = 0 ∧ n / 2 ^ w = 0 := Nat.add_eq_zero_iff.mp h
      rw [hparts.1, hparts.2] at hdiv
      exact hdiv.symm
    · rintro rfl
      simp [wrap]

/-- A residue may stand for a summand. -/
theorem residue_add (w a b : Nat) : residue w (residue w a + b) = residue w (a + b) := by
  apply residue_congr ((residue_modEq w a).add_right b)
  rw [Nat.add_eq_zero_iff, Nat.add_eq_zero_iff, residue_eq_zero]

/-- The sum of two words wraps to a word. -/
theorem wrap_eq_residue (ha : a < 2 ^ w) (hb : b < 2 ^ w) : wrap w (a + b) = residue w (a + b) := by
  rw [← residue_wrap, residue_of_lt]
  rcases Nat.lt_or_ge (a + b) (2 ^ w) with h | h
  · rw [wrap, Nat.mod_eq_of_lt h, Nat.div_eq_of_lt h]
    exact h
  · have hdiv : (a + b) / 2 ^ w = 1 := by
      rw [Nat.div_eq_iff (Nat.two_pow_pos w)]
      omega
    have hsum := Nat.mod_add_div (a + b) (2 ^ w)
    rw [hdiv] at hsum
    rw [wrap, hdiv]
    omega

/-- The sum with end-around carry is the residue of the sum. -/
theorem total_eq_residue (hw : 0 < w) (ws : List Nat) (hws : ∀ x ∈ ws, x < 2 ^ w) :
    total w ws = residue w ws.sum := by
  have hfold : ∀ sum, ws.foldl (fun sum x => wrap w (sum + x)) (residue w sum)
      = residue w (sum + ws.sum) := by
    induction ws with
    | nil => simp
    | cons x ws ih =>
        intro sum
        rw [List.forall_mem_cons] at hws
        rw [List.foldl_cons, wrap_eq_residue (residue_lt hw sum) hws.1, residue_add, ih hws.2,
          List.sum_cons, Nat.add_assoc]
  have h := hfold 0
  rwa [Nat.zero_add] at h

/-- The complement of a sum makes it all ones. -/
theorem residue_add_complement (hw : 0 < w) (n : Nat) :
    residue w (n + (ones w - residue w n)) = ones w := by
  have hlt := residue_lt hw n
  have hpow : 1 < 2 ^ w := Nat.one_lt_two_pow hw.ne'
  have hsum : residue w n + (ones w - residue w n) = ones w := by
    rw [ones]
    omega
  rw [← residue_add, hsum, residue_of_lt]
  rw [ones]
  omega

end OriaOS.Lib.OnesComplement
