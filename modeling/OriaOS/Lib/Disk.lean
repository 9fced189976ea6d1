import Mathlib

/-!
# Runs of blocks

A store of numbered blocks of `n` cells each. A stretch of memory is written as
a run of consecutive blocks and read back cell by cell.
-/

namespace OriaOS.Lib

variable {S α : Type*}

/-- Write a block. -/
def writeBlock (d : Nat → S) (a : Nat) (b : S) : Nat → S := Function.update d a b

/-- The loop that writes the blocks `g 0`, `g 1`, … from `base` on. -/
def writeRun (d : Nat → S) (base count : Nat) (g : Nat → S) : Nat → S :=
  (List.range count).foldl (fun d k => writeBlock d (base + k) (g k)) d

@[simp] theorem writeBlock_same (d : Nat → S) (a : Nat) (b : S) : writeBlock d a b a = b := by
  simp [writeBlock]

theorem writeBlock_of_ne {d : Nat → S} {a x : Nat} {b : S} (h : x ≠ a) :
    writeBlock d a b x = d x := by
  simp [writeBlock, h]

theorem writeRun_succ (d : Nat → S) (base count : Nat) (g : Nat → S) :
    writeRun d base (count + 1) g =
      writeBlock (writeRun d base count g) (base + count) (g count) := by
  simp [writeRun, List.range_succ]

theorem writeRun_outside {d : Nat → S} {base count x : Nat} {g : Nat → S}
    (h : x < base ∨ base + count ≤ x) : writeRun d base count g x = d x := by
  induction count with
  | zero => rfl
  | succ count ih =>
      rw [writeRun_succ, writeBlock_of_ne (by omega)]
      exact ih (by omega)

theorem writeRun_inside {d : Nat → S} {base count k : Nat} {g : Nat → S} (h : k < count) :
    writeRun d base count g (base + k) = g k := by
  induction count with
  | zero => omega
  | succ count ih =>
      rw [writeRun_succ]
      rcases Nat.lt_or_eq_of_le (Nat.le_of_lt_succ h) with hk | hk
      · rw [writeBlock_of_ne (by omega)]
        exact ih hk
      · subst hk
        exact writeBlock_same _ _ _

section Cells
variable {n : Nat} [NeZero n]

/-- Block `k` of a stretch of memory. -/
def blockOf (n : Nat) (mem : Nat → α) (k : Nat) : Fin n → α := fun j => mem (k * n + j.val)

/-- Cell `off` of the stretch that starts at block `base`. -/
def cellAt (d : Nat → Fin n → α) (base off : Nat) : α := d (base + off / n) (Fin.ofNat n off)

/-- What is written as a run is read back. -/
theorem cellAt_writeRun {d : Nat → Fin n → α} {base count off : Nat} {mem : Nat → α}
    (h : off / n < count) : cellAt (writeRun d base count (blockOf n mem)) base off = mem off := by
  rw [cellAt, writeRun_inside h]
  simp only [blockOf, Fin.val_ofNat]
  rw [Nat.mul_comm, Nat.div_add_mod]

theorem cellAt_congr {d e : Nat → Fin n → α} {base off : Nat}
    (h : d (base + off / n) = e (base + off / n)) : cellAt d base off = cellAt e base off := by
  rw [cellAt, cellAt, h]

end Cells

end OriaOS.Lib
