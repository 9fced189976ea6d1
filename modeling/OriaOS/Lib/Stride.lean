import Mathlib
import OriaOS.Lib.Partial

/-!
# Loops over strides

`for (uint32_t i = 0; i < n; i += step)`. The loop ends when the last stride does not carry the
counter past 32 bits; with a power of two as the step it never ends otherwise.
-/

namespace OriaOS.Lib

universe u

variable {σ : Type u} {step n i : UInt32} {turn : UInt32 → σ → σ}

/-- The loop from a value of the counter on. -/
def strideLoop (step n : UInt32) (turn : UInt32 → σ → σ) : Nat → UInt32 → σ → Option σ
  | 0, _, _ => none
  | fuel + 1, i, s =>
      if i < n then strideLoop step n turn fuel (i + step) (turn i s) else some s

/-- The loop ends, and keeps an invariant that speaks of the number of the turn. -/
theorem strideLoop_settles (step n : UInt32) (turn : UInt32 → σ → σ) {I : Nat → σ → Prop}
    (hstep : 0 < step.toNat)
    (hroom : n.toNat + step.toNat ≤ 4294967296)
    (hturn : ∀ k i s, i.toNat = k * step.toNat → i < n → I k s → I (k + 1) (turn i s)) {k : Nat}
    (hi : i.toNat = k * step.toNat) {s : σ} (hs : I k s) :
    ∃ last s', Settles (fun fuel => strideLoop step n turn fuel i s) s' ∧ I last s' ∧
      n.toNat ≤ last * step.toNat := by
  induction hleft : n.toNat - i.toNat using Nat.strong_induction_on generalizing i k s with
  | _ left ih =>
      subst hleft
      by_cases hlt : i < n
      · have hlt' := UInt32.lt_iff_toNat_lt.mp hlt
        have hnext : (i + step).toNat = i.toNat + step.toNat := by
          rw [UInt32.toNat_add]
          exact Nat.mod_eq_of_lt (by omega)
        obtain ⟨last, s', hrun, hlast⟩ := ih (n.toNat - (i + step).toNat) (by omega) (i := i + step)
          (k := k + 1) (by rw [hnext, hi, Nat.succ_mul]) (hturn k i s hi hlt hs) rfl
        exact ⟨last, s', hrun.call fun fuel => by rw [strideLoop, if_pos hlt], hlast⟩
      · refine ⟨k, s, .always fun fuel => by rw [strideLoop, if_neg hlt], hs, ?_⟩
        rw [← hi]
        exact UInt32.le_iff_toNat_le.mp (UInt32.not_lt.mp hlt)

/-- Past the last whole stride the counter wraps, and the loop never ends. -/
theorem strideLoop_stuck (step n : UInt32) (turn : UInt32 → σ → σ) (hdvd : step.toNat ∣ 4294967296)
    (hlong : 4294967296 < n.toNat + step.toNat) (hi : step.toNat ∣ i.toNat) (fuel : Nat) (s : σ) :
    strideLoop step n turn fuel i s = none := by
  induction fuel generalizing i s with
  | zero => rfl
  | succ fuel ih =>
      have hbelow : i.toNat + step.toNat ≤ 4294967296 := by
        obtain ⟨a, ha⟩ := hdvd
        obtain ⟨b, hb⟩ := hi
        have hlt : i.toNat < 4294967296 := i.toNat_lt
        rw [hb, ha] at hlt
        have hab : b + 1 ≤ a := Nat.lt_of_mul_lt_mul_left hlt
        calc i.toNat + step.toNat
          _ = step.toNat * (b + 1) := by rw [hb, Nat.mul_succ]
          _ ≤ step.toNat * a := Nat.mul_le_mul_left _ hab
          _ = 4294967296 := ha.symm
      have hlt : i < n := UInt32.lt_iff_toNat_lt.mpr (by omega)
      have hnext : step.toNat ∣ (i + step).toNat := by
        rw [UInt32.toNat_add]
        exact (Nat.dvd_mod_iff hdvd).mpr (Nat.dvd_add_self_right.mpr hi)
      rw [strideLoop, if_pos hlt]
      exact ih hnext _

end OriaOS.Lib
